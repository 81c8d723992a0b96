import Rkvs.Analysis.Flush
import Rkvs.Interface.SegmentContents

/-!
# What the writers leave in a file

A writer overwrites what is at its path from the start on and cuts nothing off. Which entries are
in the index is given by their numbers.
-/

set_option autoImplicit false

namespace Rkvs.Analysis

open Rkvs.Library Rkvs.Model Rkvs.Interface

/-! ## The index -/

/-- INTERNAL: the indexed places of two lists of entries. -/
theorem indexedPlaces_append (factor counter offset : ℕ) (es fs : List SsTableEntry) :
    indexedPlaces factor counter offset (es ++ fs) = indexedPlaces factor counter offset es ++
      indexedPlaces factor (counter + es.length) (offset + (dataBlock es).length) fs := by
  induction es generalizing counter offset with
  | nil => rfl
  | cons e es ih =>
    rw [List.cons_append, indexedPlaces, indexedPlaces, ih, dataBlock_cons, List.length_append,
      List.length_cons, List.append_assoc, Nat.add_assoc, Nat.add_comm 1, Nat.add_assoc offset]

/-- INTERNAL: they are places of entries. -/
theorem indexedPlaces_sublist (factor counter offset : ℕ) (es : List SsTableEntry) :
    (indexedPlaces factor counter offset es).Sublist (indexPlaces offset es) := by
  induction es generalizing counter offset with
  | nil => exact List.Sublist.refl _
  | cons e es ih =>
    have hrest := ih (counter + 1) (offset + (frame e).length)
    rw [indexedPlaces, indexPlaces]
    by_cases hnow : counter % factor = 0
    · rw [if_pos hnow]
      exact hrest.cons_cons _
    · rw [if_neg hnow]
      exact hrest.cons _

/-- The last index entry is that of the last entry with an indexed number.
SOURCE: level/segment.rs:123-127 -/
theorem lastPlace_eq (factor counter : ℕ) (es : List SsTableEntry) :
    (indexedPlaces factor counter 0 es).getLast?.elim 0 Sst.SegmentIndexEntry.offset =
      (dataBlock (es.take (lastIndexed counter factor es.length))).length := by
  induction es using List.reverseRecOn with
  | nil => rfl
  | append_singleton es e ih =>
    unfold lastIndexed at ih ⊢
    rw [indexedPlaces_append, List.length_append, List.length_singleton, Nat.add_sub_cancel,
      Nat.zero_add]
    by_cases hnow : (counter + es.length) % factor = 0
    · rw [indexedPlaces, if_pos hnow, indexedPlaces, List.append_nil, List.getLast?_concat,
        Nat.findGreatest_eq (P := fun i => (counter + i) % factor = 0) hnow, List.take_left]
      rfl
    · rw [indexedPlaces, if_neg hnow, indexedPlaces, List.append_nil, List.append_nil, ih]
      cases hlen : es.length with
      | zero =>
        rw [List.length_eq_zero_iff.mp hlen]
        rfl
      | succ n =>
        have hle := Nat.findGreatest_le (P := fun i => (counter + i) % factor = 0) n
        rw [Nat.add_sub_cancel, Nat.findGreatest_of_not (by rwa [← hlen]),
          List.take_append_of_le_length (by omega)]

/-- INTERNAL: an entry gets into the index if its number is a multiple of the factor.
SOURCE: level/segment.rs:351-353, 443-447 -/
theorem nextIndex_eq {factor counter offset : ℕ} {e : SsTableEntry} {index next : Sst.SegmentIndex}
    (h : (do
      if (← checkedMod counter factor) = 0 then index.addIndex e.key offset
      else return index : Exec Sst.SegmentIndex) = .ok next) :
    next.indices = index.indices ++ indexedPlaces factor counter offset [e] := by
  obtain ⟨r, hmod, hrest⟩ := exec_bind_eq_ok.mp h
  have hr : r = counter % factor := by
    unfold checkedMod at hmod
    by_cases hfactor : factor = 0
    · rw [if_pos hfactor] at hmod
      cases hmod
    · rw [if_neg hfactor] at hmod
      exact (Except.ok.inj hmod).symm
  rw [hr] at hrest
  rw [indexedPlaces, indexedPlaces, List.append_nil]
  by_cases hnow : counter % factor = 0
  · rw [if_pos hnow] at hrest ⊢
    obtain ⟨len, -, hadd⟩ := exec_bind_eq_ok.mp hrest
    cases hadd
    rfl
  · rw [if_neg hnow] at hrest ⊢
    cases hrest
    exact (List.append_nil _).symm

/-! ## Writing over a file -/

/-- INTERNAL: writing nothing. -/
theorem overwrite_nil (old : Bytes) : Dir.overwrite old 0 [] = old := rfl

/-- INTERNAL: writing to an empty file. -/
theorem overwrite_empty (bytes : Bytes) : Dir.overwrite [] 0 bytes = bytes := by
  unfold Dir.overwrite
  simp

/-- INTERNAL: bytes are written behind others. -/
theorem overwrite_overwrite (old bytes more : Bytes) {pos : ℕ} (hpos : pos = bytes.length) :
    Dir.overwrite (Dir.overwrite old 0 bytes) pos more = Dir.overwrite old 0 (bytes ++ more) := by
  subst hpos
  unfold Dir.overwrite
  simp [List.drop_append, List.drop_drop]

/-- INTERNAL: a file that is not there has no bytes. -/
theorem content_of_not_mem {d : Dir} {name : String} (h : name ∉ d.names) : d.content name = [] := by
  unfold Dir.content
  rw [List.lookup_eq_none_iff.mpr]
  · rfl
  · intro f hf
    rw [bne_iff_ne]
    rintro rfl
    exact h (List.mem_map_of_mem hf)

section
variable {path : String} {d d' : Dir}

/-- INTERNAL: an opened file keeps its contents; a new one is empty.
SOURCE: level/segment.rs:341-344, 386-389 -/
theorem openWrite_content (h : (Dir.openWrite path).run d = .ok () d') :
    d'.content path = d.content path := by
  obtain ⟨ev, mid, hnext, hrest⟩ := run_bind_eq_ok h
  have hfiles := Dir.nextEvent_files hnext
  have hsame : mid.content path = d.content path := by
    unfold Dir.content
    rw [hfiles]
  cases ev with
  | fail written => cases hrest
  | ok =>
    cases hrest
    rw [← hsame]
    change (if path ∈ mid.names then mid else mid.put path []).content path = _
    by_cases hmem : path ∈ mid.names
    · rw [if_pos hmem]
    · rw [if_neg hmem, Dir.content_put, content_of_not_mem hmem]

/-- INTERNAL: bytes are written over a file. -/
theorem writeAt_content {pos : ℕ} {buf : Bytes} (h : (Dir.writeAt path pos buf).run d = .ok () d') :
    d'.content path = Dir.overwrite (d.content path) pos buf ∧ pos + buf.length < 2 ^ 63 := by
  obtain ⟨ev, mid, hnext, hrest⟩ := run_bind_eq_ok h
  have hfiles := Dir.nextEvent_files hnext
  have hsame : mid.content path = d.content path := by
    unfold Dir.content
    rw [hfiles]
  cases ev with
  | fail written => cases hrest
  | ok =>
    dsimp only at hrest
    by_cases hlong : 2 ^ 63 ≤ pos + buf.length
    · rw [if_pos hlong] at hrest
      cases hrest
    · rw [if_neg hlong] at hrest
      cases hrest
      exact ⟨(Dir.content_put ..).trans (by rw [hsame]), Nat.lt_of_not_le hlong⟩

/-- INTERNAL: an entry is written with its length in front. -/
theorem writeFrame_content {old : Bytes} {es : List SsTableEntry} {e : SsTableEntry} {pos : ℕ}
    {mid : Dir} (hcontent : d.content path = Dir.overwrite old 0 (dataBlock es))
    (hpos : pos = (dataBlock es).length)
    (hnumber : (Dir.writeAt path pos (leBytes 4 e.toBytes.length)).run d = .ok () mid)
    (hbytes : (Dir.writeAt path (pos + 4) e.toBytes).run mid = .ok () d') :
    d'.content path = Dir.overwrite old 0 (dataBlock (es ++ [e])) := by
  have hfirst := (writeAt_content hnumber).1
  rw [hcontent, overwrite_overwrite _ _ _ hpos] at hfirst
  have hsecond := (writeAt_content hbytes).1
  rw [hfirst, overwrite_overwrite _ _ _ (by simp [hpos])] at hsecond
  rw [hsecond]
  simp [frame]

/-! ## The writer of the flush -/

section
variable {old : Bytes} {table : Table} {factor : ℕ}

/-- The loop of the flush writes entry after entry over the file.
SOURCE: level/segment.rs:350-363 -/
theorem memtableLoop_content {more es : List SsTableEntry} {index : Sst.SegmentIndex}
    {counter offset : ℕ} {res : Sst.SegmentIndex × ℕ}
    (htable : ∀ e ∈ more, table.lookup e.key = some ⟨e.value, e.sequenceNumber⟩)
    (hcontent : d.content path = Dir.overwrite old 0 (dataBlock es))
    (hoffset : offset = (dataBlock es).length)
    (h : (Sst.SegmentWriter.memtableLoop path table factor (more.map SsTableEntry.key) index counter
      offset).run d = .ok res d') :
    d'.content path = Dir.overwrite old 0 (dataBlock (es ++ more)) ∧
      res.2 = (dataBlock (es ++ more)).length ∧
      res.1.indices = index.indices ++ indexedPlaces factor counter offset more := by
  induction more generalizing d es index counter offset with
  | nil =>
    cases h
    rw [List.append_nil, indexedPlaces, List.append_nil]
    exact ⟨hcontent, hoffset, rfl⟩
  | cons e more ih =>
    rw [List.map_cons, Sst.SegmentWriter.memtableLoop] at h
    obtain ⟨next, _, hindex, h₁⟩ := run_bind_eq_ok h
    obtain ⟨hindexOk, rfl⟩ := run_liftExec_eq_ok hindex
    obtain ⟨value, _, hvalue, h₂⟩ := run_bind_eq_ok h₁
    obtain ⟨hvalueOk, rfl⟩ := run_liftExec_eq_ok hvalue
    rw [htable e (List.mem_cons_self ..), unwrap_some] at hvalueOk
    cases hvalueOk
    obtain ⟨⟨⟩, d₁, hnumber, h₃⟩ := run_bind_eq_ok h₂
    obtain ⟨_, _, hadd, h₄⟩ := run_bind_eq_ok h₃
    obtain ⟨haddOk, rfl⟩ := run_liftExec_eq_ok hadd
    obtain ⟨rfl, -⟩ := checkedAdd_eq_ok haddOk
    obtain ⟨⟨⟩, d₂, hbytes, h₅⟩ := run_bind_eq_ok h₄
    obtain ⟨_, _, hend, h₆⟩ := run_bind_eq_ok h₅
    obtain ⟨hendOk, rfl⟩ := run_liftExec_eq_ok hend
    obtain ⟨rfl, -⟩ := checkedAdd_eq_ok hendOk
    obtain ⟨_, _, hcounter, hrest⟩ := run_bind_eq_ok h₆
    obtain ⟨hcounterOk, rfl⟩ := run_liftExec_eq_ok hcounter
    obtain ⟨rfl, -⟩ := checkedAdd_eq_ok hcounterOk
    have hentry : SsTableEntry.fromValue e.key ⟨e.value, e.sequenceNumber⟩ = e := rfl
    rw [hentry] at hnumber hbytes hrest
    have hplace : offset + 4 + e.len = offset + (frame e).length := by
      rw [frame_length]
      omega
    have hnext := ih (fun f hf => htable f (List.mem_cons_of_mem _ hf))
      (writeFrame_content hcontent hoffset hnumber hbytes)
      (by rw [hoffset, dataBlock_append, List.length_append]; simp; omega) hrest
    rw [List.append_assoc, List.singleton_append, nextIndex_eq hindexOk, hplace] at hnext
    refine ⟨hnext.1, hnext.2.1, hnext.2.2.trans ?_⟩
    rw [List.append_assoc, indexedPlaces, indexedPlaces, indexedPlaces, List.append_nil]

/-- A flush writes its file over what is at its path.
SOURCE: level/segment.rs:333-372 -/
theorem segmentFileFromMemtable_content {es : List SsTableEntry} {n : ℕ} (hasc : Ascending es)
    (hholds : Holds table es)
    (h : (Sst.SegmentWriter.segmentFileFromMemtable table n factor).run d = .ok path d') :
    path ∈ d'.names ∧ d'.content path =
      Dir.overwrite (d.content path) 0 (segmentBytes es (indexedPlaces factor 0 0 es)) ∧
      (segmentBytes es (indexedPlaces factor 0 0 es)).length < 2 ^ 63 := by
  unfold Sst.SegmentWriter.segmentFileFromMemtable at h
  obtain ⟨filepath, _, hpath, h₁⟩ := run_bind_eq_ok h
  obtain ⟨-, rfl⟩ := run_liftExec_eq_ok hpath
  obtain ⟨⟨⟩, d₁, hopen, h₂⟩ := run_bind_eq_ok h₁
  obtain ⟨⟨index, offset⟩, d₂, hloop, h₃⟩ := run_bind_eq_ok h₂
  obtain ⟨⟨⟩, d₃, hindex, h₄⟩ := run_bind_eq_ok h₃
  obtain ⟨⟨⟩, d₄, hfooter, hend⟩ := run_bind_eq_ok h₄
  cases hend
  rw [sortedKeys_eq hasc hholds] at hloop
  obtain ⟨hdata, hoffset, hindices⟩ := memtableLoop_content
    (fun e he => lookup_of_holds hasc hholds he)
    ((openWrite_content hopen).trans (overwrite_nil _).symm : _ = Dir.overwrite _ 0 (dataBlock []))
    rfl hloop
  rw [List.nil_append] at hdata hoffset
  have hplaces : index.indices = indexedPlaces factor 0 0 es := hindices
  dsimp only at hoffset
  have hfirst := (writeAt_content hindex).1
  rw [hdata, overwrite_overwrite _ _ _ hoffset] at hfirst
  obtain ⟨hsecond, hlt⟩ := writeAt_content hfooter
  rw [hfirst, overwrite_overwrite _ _ _ (by simp [hoffset])] at hsecond
  have hbytes : dataBlock es ++ index.toBytes ++ Sst.footerToBytes offset =
      segmentBytes es (indexedPlaces factor 0 0 es) := by
    rw [hoffset, ← hplaces]
    rfl
  refine ⟨(writeAt_wroteTo hfooter).mem, hsecond.trans (by rw [hbytes]), ?_⟩
  rw [← hbytes, List.length_append, List.length_append, ← hoffset]
  exact hlt

end

/-! ## The segment writer -/

/-- What a segment writer has written over `old`, the contents that it has found. -/
structure WrittenOver (old : Bytes) (w : Sst.SegmentWriter) (d : Dir) (es : List SsTableEntry) :
    Prop where
  content : d.content w.filepath = Dir.overwrite old 0 (dataBlock es)
  position : w.position = (dataBlock es).length
  currSize : w.currSize = old.length + (dataBlock es).length
  entriesWritten : w.entriesWritten = es.length
  indices : w.index.indices = indexedPlaces w.indexSparsityFactor 1 old.length es

/-- A segment writer starts at the beginning of the file, but counts from its end.
SOURCE: level/segment.rs:378-401 -/
theorem createNewSegment_over {levelNumber n factor : ℕ} {w : Sst.SegmentWriter}
    (h : (Sst.SegmentWriter.createNewSegment levelNumber n factor).run d = .ok w d') :
    Sst.Segment.determineSegmentFilename levelNumber n = .ok w.filepath ∧
      w.indexSparsityFactor = factor ∧ WrittenOver (d.content w.filepath) w d' [] := by
  unfold Sst.SegmentWriter.createNewSegment at h
  obtain ⟨filepath, _, hpath, h₁⟩ := run_bind_eq_ok h
  obtain ⟨hname, rfl⟩ := run_liftExec_eq_ok hpath
  obtain ⟨⟨⟩, d₁, hopen, h₂⟩ := run_bind_eq_ok h₁
  obtain ⟨_, _, hget, hend⟩ := run_bind_eq_ok h₂
  cases hget
  cases hend
  have hsame := openWrite_content hopen
  exact ⟨hname, rfl, hsame, rfl, congrArg List.length hsame, rfl, rfl⟩

/-- SOURCE: level/segment.rs:434-449 -/
theorem writeEntry_over {old : Bytes} {w w' : Sst.SegmentWriter} {es : List SsTableEntry}
    {e : SsTableEntry} (hw : WrittenOver old w d es) (h : (w.writeEntry e).run d = .ok w' d') :
    WrittenOver old w' d' (es ++ [e]) ∧ w'.filepath = w.filepath ∧
      w'.indexSparsityFactor = w.indexSparsityFactor := by
  unfold Sst.SegmentWriter.writeEntry at h
  obtain ⟨⟨⟩, _, hassert, h₁⟩ := run_bind_eq_ok h
  obtain ⟨-, rfl⟩ := run_liftExec_eq_ok hassert
  obtain ⟨⟨⟩, d₁, hnumber, h₂⟩ := run_bind_eq_ok h₁
  obtain ⟨⟨⟩, d₂, hbytes, h₃⟩ := run_bind_eq_ok h₂
  obtain ⟨count, _, hcount, h₄⟩ := run_bind_eq_ok h₃
  obtain ⟨hcountOk, rfl⟩ := run_liftExec_eq_ok hcount
  obtain ⟨rfl, -⟩ := checkedAdd_eq_ok hcountOk
  obtain ⟨index, _, hindex, h₅⟩ := run_bind_eq_ok h₄
  obtain ⟨hindexOk, rfl⟩ := run_liftExec_eq_ok hindex
  obtain ⟨size, _, hsize, hend⟩ := run_bind_eq_ok h₅
  obtain ⟨hsizeOk, rfl⟩ := run_liftExec_eq_ok hsize
  obtain ⟨rfl, -⟩ := checkedAdd_eq_ok hsizeOk
  cases hend
  have hblock : (dataBlock (es ++ [e])).length = (dataBlock es).length + (e.toBytes.length + 4) := by
    simp
  refine ⟨⟨writeFrame_content hw.content hw.position hnumber hbytes, ?_, ?_, ?_, ?_⟩, rfl, rfl⟩
  · dsimp only
    rw [hw.position, hblock]
    omega
  · dsimp only
    rw [hw.currSize, hblock]
    omega
  · dsimp only
    rw [hw.entriesWritten, List.length_append, List.length_singleton]
  · dsimp only
    rw [nextIndex_eq hindexOk, hw.indices, hw.entriesWritten, hw.currSize, indexedPlaces_append,
      Nat.add_comm 1]

/-- SOURCE: level/segment.rs:434-449 -/
theorem writeEntries_over {old : Bytes} {more es : List SsTableEntry} {w w' : Sst.SegmentWriter}
    (hw : WrittenOver old w d es)
    (h : (more.foldlM Sst.SegmentWriter.writeEntry w).run d = .ok w' d') :
    WrittenOver old w' d' (es ++ more) ∧ w'.filepath = w.filepath ∧
      w'.indexSparsityFactor = w.indexSparsityFactor := by
  induction more generalizing d es w with
  | nil =>
    cases h
    rw [List.append_nil]
    exact ⟨hw, rfl, rfl⟩
  | cons e more ih =>
    rw [List.foldlM_cons] at h
    obtain ⟨w₁, d₁, hentry, hrest⟩ := run_bind_eq_ok h
    obtain ⟨hstep, hpath, hfactor⟩ := writeEntry_over hw hentry
    obtain ⟨hdone, hpath', hfactor'⟩ := ih hstep hrest
    rw [List.append_assoc, List.singleton_append] at hdone
    exact ⟨hdone, hpath'.trans hpath, hfactor'.trans hfactor⟩

/-- The bytes that a segment writer writes if it finds `shift` bytes in its file: all places are
moved by that. -/
def shiftedBytes (es : List SsTableEntry) (factor shift : ℕ) : Bytes :=
  dataBlock es ++ (indexedPlaces factor 1 shift es).flatMap Sst.SegmentIndexEntry.toBytes ++
    Sst.footerToBytes (shift + (dataBlock es).length)

/-- INTERNAL: bytes that are not shifted. -/
theorem shiftedBytes_zero (es : List SsTableEntry) (factor : ℕ) :
    shiftedBytes es factor 0 = segmentBytes es (indexedPlaces factor 1 0 es) := by
  unfold shiftedBytes
  rw [Nat.zero_add]
  rfl

/-- A segment writer writes its file over what is at its path.
SOURCE: level/segment.rs:378-449 -/
theorem segmentWriter_content {es : List SsTableEntry} {levelNumber n factor : ℕ}
    {w w' w'' : Sst.SegmentWriter} {d₁ d₂ : Dir}
    (hname : Sst.Segment.determineSegmentFilename levelNumber n = .ok path)
    (hcreate : (Sst.SegmentWriter.createNewSegment levelNumber n factor).run d = .ok w d₁)
    (hentries : (es.foldlM Sst.SegmentWriter.writeEntry w).run d₁ = .ok w' d₂)
    (hfooter : w'.writeIndexAndFooter.run d₂ = .ok w'' d') :
    path ∈ d'.names ∧ d'.content path =
      Dir.overwrite (d.content path) 0 (shiftedBytes es factor (d.content path).length) ∧
      (shiftedBytes es factor (d.content path).length).length < 2 ^ 63 := by
  obtain ⟨hname', hfactor, hstart⟩ := createNewSegment_over hcreate
  obtain rfl : w.filepath = path := Except.ok.inj (hname'.symm.trans hname)
  obtain ⟨hdone, hpath, hfactor'⟩ := writeEntries_over hstart hentries
  rw [List.nil_append] at hdone
  have hcontent := hdone.content
  have hindices := hdone.indices
  rw [hpath] at hcontent
  rw [hfactor', hfactor] at hindices
  unfold Sst.SegmentWriter.writeIndexAndFooter at hfooter
  obtain ⟨⟨⟩, _, hassert, h₁⟩ := run_bind_eq_ok hfooter
  obtain ⟨-, rfl⟩ := run_liftExec_eq_ok hassert
  obtain ⟨⟨⟩, d₃, hindex, h₂⟩ := run_bind_eq_ok h₁
  obtain ⟨⟨⟩, d₄, hend, hreturn⟩ := run_bind_eq_ok h₂
  cases hreturn
  rw [hpath] at hindex hend
  have hfirst := (writeAt_content hindex).1
  rw [hcontent, overwrite_overwrite _ _ _ hdone.position] at hfirst
  obtain ⟨hsecond, hlt⟩ := writeAt_content hend
  rw [hfirst, overwrite_overwrite _ _ _ (by simp [hdone.position])] at hsecond
  have hbytes : dataBlock es ++ w'.index.toBytes ++ Sst.footerToBytes w'.currSize =
      shiftedBytes es factor (d.content w.filepath).length := by
    unfold Sst.SegmentIndex.toBytes shiftedBytes
    rw [hindices, hdone.currSize]
  refine ⟨(writeAt_wroteTo hend).mem, hsecond.trans (by rw [hbytes]), ?_⟩
  rw [← hbytes, List.length_append, List.length_append, ← hdone.position]
  exact hlt

end

end Rkvs.Analysis

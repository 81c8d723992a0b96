import Rkvs.Analysis.SstWriter

/-!
# Segment files answer lookups

Both writers leave a file that opens to a segment with exactly the entries that were written,
whichever of them are in the index.
-/

set_option autoImplicit false

namespace Rkvs.Analysis

open Rkvs.Library Rkvs.Model Rkvs.Interface

/-- A file with the entries and an index of some of them. -/
structure Complete (path : String) (d : Dir) (es : List SsTableEntry) : Prop where
  mem : path ∈ d.names
  content : ∃ indices, indices.Sublist (indexPlaces 0 es) ∧
    d.content path = segmentBytes es indices ∧ (segmentBytes es indices).length < 2 ^ 64

/-! ## The writer of the flush -/

/-- What the flush has written: the entries, with an index of some of them in memory. -/
structure Copying (path : String) (d : Dir) (es : List SsTableEntry) (index : Sst.SegmentIndex)
    (offset : ℕ) : Prop where
  content : d.content path = dataBlock es
  offset_eq : offset = (dataBlock es).length
  short : (dataBlock es).length < 2 ^ 63
  len : index.len = indexLen index.indices
  index : index.indices.Sublist (indexPlaces 0 es)

section
variable {path : String} {table : Table} {factor : ℕ} {es : List SsTableEntry}
  {index : Sst.SegmentIndex} {offset : ℕ} {d : Dir}

/-- The loop of the flush writes entry after entry.
SOURCE: level/segment.rs:350-363 -/
theorem memtableLoop_runs (more : List SsTableEntry)
    (htable : ∀ e ∈ more, table.lookup e.key = some ⟨e.value, e.sequenceNumber⟩)
    (hfits : ∀ e ∈ more, EntryFits e) (counter : ℕ) (h : Copying path d es index offset) :
    Runs (Sst.SegmentWriter.memtableLoop path table factor (more.map SsTableEntry.key) index
        counter offset) d
      (fun r d' => Copying path d' (es ++ more) r.1 r.2 ∧ (path ∈ d.names → path ∈ d'.names) ∧
        (d.faults = [] → d'.faults = []))
      (FailsIf d (factor = 0 ∨ 2 ^ 32 ≤ counter + more.length)
        (2 ^ 63 ≤ (dataBlock (es ++ more)).length)) := by
  induction more generalizing d es index offset counter with
  | nil =>
    rw [List.append_nil]
    exact Runs.of_ok rfl ⟨h, fun hmem => hmem, fun hd => hd⟩
  | cons e more ih =>
    have he := hfits e (List.mem_cons_self ..)
    have hshort := h.short
    have hlt := he.len_lt
    have hge := len_ge e
    have hoffset := h.offset_eq
    have hdata : dataBlock es ++ leBytes 4 e.toBytes.length ++ e.toBytes =
        dataBlock (es ++ [e]) := by simp [frame]
    have hlength : (dataBlock (es ++ [e])).length = (dataBlock es).length + (e.len + 4) := by
      simp
    have hassoc : es ++ e :: more = es ++ [e] ++ more := by simp
    have hprefix : (dataBlock (es ++ [e])).length ≤ (dataBlock (es ++ e :: more)).length := by
      rw [hassoc, dataBlock_append (es ++ [e])]
      exact (List.prefix_append ..).length_le
    rw [List.map_cons, Sst.SegmentWriter.memtableLoop]
    by_cases hfactor : factor = 0
    · have hpanic : (do
          if (← checkedMod counter factor) = 0 then index.addIndex e.key offset
          else return index : Exec Sst.SegmentIndex) = .error .panic := by
        unfold checkedMod
        rw [if_pos hfactor]
        rfl
      rw [hpanic]
      exact Runs.of_error (run_bind_error (run_liftExec_error ..)) (FailsIf.panic (Or.inl hfactor))
    obtain ⟨next, hnext, hlen, hsub⟩ :=
      nextIndex_ok h.len h.index hoffset e (by omega) hfactor counter
    have hvalue : unwrap (table.lookup e.key) = .ok ⟨e.value, e.sequenceNumber⟩ := by
      rw [htable e (List.mem_cons_self ..), unwrap_some]
    refine runs_liftExec hnext (runs_liftExec hvalue ?_)
    have hentry : SsTableEntry.fromValue e.key ⟨e.value, e.sequenceNumber⟩ = e := rfl
    simp only [hentry]
    have hnumber := writeAt_runs h.content hoffset (leBytes 4 e.toBytes.length)
    refine Runs.bind (hnumber.mono (fun _ _ hq => hq) fun f d' hf => ?_) ?_
    · refine hf.mono (fun hd => hd) False.elim fun hlong => (hlong.trans ?_).trans hprefix
      rw [← hdata]
      exact (List.prefix_append ..).length_le
    rintro - d₁ ⟨hwrote₁, hcontent₁, -⟩
    refine runs_liftExec (checkedAdd_ok (by omega)) ?_
    have hposition : offset + 4 = (dataBlock es ++ leBytes 4 e.toBytes.length).length := by
      rw [hoffset, List.length_append, leBytes_length]
    have hbytes := writeAt_runs hcontent₁ hposition e.toBytes
    rw [hdata] at hbytes
    refine Runs.bind (hbytes.mono (fun _ _ hq => hq) fun f d' hf => ?_) ?_
    · exact hf.mono hwrote₁.faults False.elim fun hlong => hlong.trans hprefix
    rintro - d₂ ⟨hwrote₂, hcontent₂, hroom⟩
    have hcopied : Copying path d₂ (es ++ [e]) next (offset + 4 + e.len) :=
      ⟨hcontent₂, by omega, hroom, hlen, hsub⟩
    refine runs_liftExec (checkedAdd_ok (by omega)) ?_
    by_cases hcounter : counter + 1 < 2 ^ 32
    · refine runs_liftExec (checkedAdd_ok hcounter) ?_
      have hrest := ih (fun f hf => htable f (List.mem_cons_of_mem _ hf))
        (fun f hf => hfits f (List.mem_cons_of_mem _ hf)) (counter + 1) hcopied
      rw [← hassoc] at hrest
      refine hrest.mono ?_ ?_
      · rintro r d' ⟨hfinal, hmem, hclear⟩
        exact ⟨hfinal, fun _ => hmem hwrote₂.mem,
          fun hd => hclear (hwrote₂.faults (hwrote₁.faults hd))⟩
      · intro f d' hf
        refine hf.mono (fun hd => hwrote₂.faults (hwrote₁.faults hd)) ?_ (fun hlong => hlong)
        rw [List.length_cons, Nat.add_assoc, Nat.add_comm 1]
        exact fun hbad => hbad
    · have hpanic : checkedAdd 32 counter 1 = .error .panic := if_neg hcounter
      rw [hpanic]
      refine Runs.of_error (run_bind_error (run_liftExec_error ..)) (FailsIf.panic (Or.inr ?_))
      rw [List.length_cons]
      omega

end

/-- INTERNAL: the keys of a table in order are those of its entries.
SOURCE: level/segment.rs:346-347 -/
theorem sortedKeys_eq {table : Table} {es : List SsTableEntry} (hasc : Ascending es)
    (htable : Holds table es) : table.keys.sort (· ≤ ·) = es.map SsTableEntry.key := by
  have hsorted : (es.map SsTableEntry.key).Pairwise (· < ·) := List.pairwise_map.mpr hasc
  have hnodup : (es.map SsTableEntry.key).Nodup := hsorted.imp fun hlt => hlt.ne
  have hkeys : table.keys = (es.map SsTableEntry.key).toFinset := by
    ext key
    rw [Finmap.mem_keys, ← Finmap.lookup_isSome, htable key, List.mem_toFinset, List.mem_map]
    constructor
    · intro hsome
      rw [Option.isSome_map] at hsome
      obtain ⟨e, he⟩ := Option.isSome_iff_exists.mp hsome
      exact ⟨e, List.mem_of_find?_eq_some he, by simpa using List.find?_some he⟩
    · rintro ⟨e, he, rfl⟩
      rw [entryFor_eq_some hasc he]
      rfl
  rw [hkeys]
  exact (List.toFinset_sort (· ≤ ·) hnodup).mpr (hsorted.imp fun hlt => hlt.le)

/-- INTERNAL: an index of some entries is no longer than one of all.
SOURCE: level/segment.rs:504-511 -/
theorem segmentBytes_length_le {es : List SsTableEntry} {indices : List Sst.SegmentIndexEntry}
    (h : indices.Sublist (indexPlaces 0 es)) :
    (segmentBytes es indices).length ≤ (segmentBytes es (indexPlaces 0 es)).length := by
  have hsub : (indices.flatMap Sst.SegmentIndexEntry.toBytes).length ≤
      ((indexPlaces 0 es).flatMap Sst.SegmentIndexEntry.toBytes).length := by
    rw [List.length_flatMap, List.length_flatMap]
    exact (h.map _).sum_le_sum fun _ _ => Nat.zero_le _
  unfold segmentBytes
  simp only [List.length_append]
  omega

/-- The flush writes a segment file.
SOURCE: level/segment.rs:333-372 -/
theorem segmentFileFromMemtable_runs {table : Table} {es : List SsTableEntry} {n factor : ℕ}
    {d : Dir} (hasc : Ascending es) (hfits : ∀ e ∈ es, EntryFits e) (htable : Holds table es)
    (hfresh : ∀ path, Sst.Segment.determineSegmentFilename 0 n = .ok path → path ∉ d.names) :
    Runs (Sst.SegmentWriter.segmentFileFromMemtable table n factor) d
      (fun path d' => Sst.Segment.determineSegmentFilename 0 n = .ok path ∧ Complete path d' es)
      (FailsIf d (¬n < 2 ^ 32 ∨ factor = 0 ∨ 2 ^ 32 ≤ es.length)
        (2 ^ 63 ≤ (segmentBytes es (indexPlaces 0 es)).length)) := by
  have hname := determineSegmentFilename_eq 0 n
  unfold Sst.SegmentWriter.segmentFileFromMemtable
  by_cases hn : n < 2 ^ 32
  swap
  · rw [if_neg fun hboth => hn hboth.2] at hname
    rw [hname]
    exact Runs.of_error (run_bind_error (run_liftExec_error ..)) (FailsIf.panic (Or.inl hn))
  rw [if_pos ⟨by norm_num, hn⟩] at hname
  have hnew := hfresh _ hname
  generalize String.ofList (hexFixed 8 0 ++ hexFixed 8 n ++ ['.', 's', 's', 't']) = path
    at hname hnew
  refine runs_liftExec hname ?_
  rw [hname]
  refine Runs.bind ((openWrite_runs hnew).mono (fun _ _ hq => hq) fun f d' hf => ?_) ?_
  · exact hf.mono (fun hd => hd) False.elim False.elim
  rintro - d₁ ⟨hwrote₁, hempty⟩
  dsimp only
  rw [sortedKeys_eq hasc htable]
  have hlookup : ∀ e ∈ es, table.lookup e.key = some ⟨e.value, e.sequenceNumber⟩ := by
    intro e he
    rw [htable e.key, entryFor_eq_some hasc he]
    rfl
  have hstart : Copying path d₁ [] Sst.SegmentIndex.new 0 :=
    ⟨hempty, rfl, by norm_num, rfl, List.nil_sublist _⟩
  have hloop := @memtableLoop_runs path table factor [] _ 0 d₁ es hlookup hfits 0 hstart
  rw [List.nil_append, Nat.zero_add] at hloop
  refine Runs.bind (hloop.mono (fun _ _ hq => hq) fun f d' hf => ?_) ?_
  · refine hf.mono hwrote₁.faults Or.inr fun hlong => hlong.trans ?_
    unfold segmentBytes
    rw [List.append_assoc]
    exact (List.prefix_append ..).length_le
  rintro ⟨index, offset⟩ d₂ ⟨hcopied, hmem, hclear⟩
  refine indexAndFooter_runs hcopied.content hcopied.offset_eq ?_ ?_
  · intro d₃ hwrote₃ hcontent hroom
    exact Runs.of_ok rfl ⟨rfl, hwrote₃.mem, index.indices, hcopied.index, hcontent,
      hroom.trans (by norm_num)⟩
  · intro f d₃ hf
    exact hf.mono (fun hd => hclear (hwrote₁.faults hd)) False.elim
      fun hlong => hlong.trans (segmentBytes_length_le hcopied.index)

/-! ## What either has written -/

/-- INTERNAL: the file that was written is complete.
SOURCE: level/segment.rs:333-449 -/
theorem written_complete {es : List SsTableEntry} {factor : ℕ} {dir dir' : Dir} {path : String}
    (hasc : Ascending es) (hfits : ∀ e ∈ es, EntryFits e) (h : Written es factor dir dir' path) :
    Complete path dir' es ∧ ∃ levelNumber n,
      Sst.Segment.determineSegmentFilename levelNumber n = .ok path := by
  cases h with
  | memtable table n hholds hname hfresh hrun =>
    have hnew : ∀ name, Sst.Segment.determineSegmentFilename 0 n = .ok name →
        name ∉ dir.names := fun name h => Except.ok.inj (hname.symm.trans h) ▸ hfresh
    obtain ⟨-, hcomplete⟩ := (segmentFileFromMemtable_runs hasc hfits hholds hnew).ok hrun
    exact ⟨hcomplete, 0, n, hname⟩
  | writer levelNumber n w w' w'' d d' hname hfresh hcreate hentries hfooter =>
    have hnew : ∀ name, Sst.Segment.determineSegmentFilename levelNumber n = .ok name →
        name ∉ dir.names := fun name h => Except.ok.inj (hname.symm.trans h) ▸ hfresh
    obtain ⟨hwriting, -, -, -, hpath⟩ := (createNewSegment_runs hnew).ok hcreate
    obtain ⟨hwritten, hpath', -⟩ := (writeEntries_runs es hwriting).ok hentries
    rw [List.nil_append] at hwritten
    obtain ⟨hwrote, -, -, hcontent, hroom⟩ := (writeIndexAndFooter_runs hwritten).ok hfooter
    have hsame : w'.filepath = path := hpath'.trans (Except.ok.inj (hpath.symm.trans hname))
    rw [hsame] at hwrote hcontent
    exact ⟨⟨hwrote.mem, w'.index.indices, hwritten.index, hcontent, hroom.trans (by norm_num)⟩,
      levelNumber, n, hname⟩

/-- INTERNAL: a file system without faults lets a run go through that has room.
SOURCE: level/segment.rs:333-449 -/
theorem run_of_room {α : Type} {x : EStateM Fault Dir α} {d : Dir} {Q : α → Dir → Prop}
    {bad long : Prop} (h : Runs x d Q (FailsIf d bad long)) (hfaults : d.faults = [])
    (hbad : ¬bad) (hlong : ¬long) : ∃ a d', x.run d = .ok a d' ∧ Q a d' := by
  cases hrun : x.run d with
  | ok a d' => exact ⟨a, d', rfl, h.ok hrun⟩
  | error e d' =>
    obtain ⟨hpanic, hio⟩ := h.error hrun
    by_cases he : e = .panic
    · exact absurd (hpanic he) hbad
    · exact absurd (hio he) (not_or.mpr ⟨not_not.mpr hfaults, hlong⟩)

/-- A flush gets its file written if the file system has no fault and room.
SOURCE: level/segment.rs:333-372 -/
theorem memtable_written {table : Table} {es : List SsTableEntry} {n factor : ℕ} {dir : Dir}
    {path : String} (hasc : Ascending es) (hfits : ∀ e ∈ es, EntryFits e)
    (hholds : Holds table es) (hname : Sst.Segment.determineSegmentFilename 0 n = .ok path)
    (hfresh : path ∉ dir.names) (hfactor : factor ≠ 0) (hlen : es.length < 2 ^ 32)
    (hroom : (segmentBytes es (indexPlaces 0 es)).length < 2 ^ 63) (hfaults : dir.faults = []) :
    ∃ dir', Written es factor dir dir' path := by
  have hn : n < 2 ^ 32 := by
    rw [determineSegmentFilename_eq] at hname
    split at hname
    · rename_i hlt
      exact hlt.2
    · cases hname
  have hnew : ∀ name, Sst.Segment.determineSegmentFilename 0 n = .ok name → name ∉ dir.names :=
    fun name h => Except.ok.inj (hname.symm.trans h) ▸ hfresh
  have hbad : ¬(¬n < 2 ^ 32 ∨ factor = 0 ∨ 2 ^ 32 ≤ es.length) := by
    rw [not_or, not_or]
    exact ⟨not_not.mpr hn, hfactor, Nat.not_le.mpr hlen⟩
  obtain ⟨path', dir', hrun, hpath, -⟩ := run_of_room
    (segmentFileFromMemtable_runs hasc hfits hholds hnew) hfaults hbad (Nat.not_le.mpr hroom)
  cases hname.symm.trans hpath
  exact ⟨dir', .memtable table n hholds hname hfresh hrun⟩

/-- So does a writer.
SOURCE: level/segment.rs:378-449 -/
theorem writer_written {es : List SsTableEntry} {levelNumber n factor : ℕ} {dir : Dir}
    {path : String} (hname : Sst.Segment.determineSegmentFilename levelNumber n = .ok path)
    (hfresh : path ∉ dir.names) (hfactor : factor ≠ 0)
    (hroom : (segmentBytes es (indexPlaces 0 es)).length < 2 ^ 63) (hfaults : dir.faults = []) :
    ∃ dir', Written es factor dir dir' path := by
  have hn : levelNumber < 2 ^ 32 ∧ n < 2 ^ 32 := by
    rw [determineSegmentFilename_eq] at hname
    split at hname
    · assumption
    · cases hname
  have hnew : ∀ name, Sst.Segment.determineSegmentFilename levelNumber n = .ok name →
      name ∉ dir.names := fun name h => Except.ok.inj (hname.symm.trans h) ▸ hfresh
  have hdata : (dataBlock es).length < 2 ^ 63 := by
    refine lt_of_le_of_lt ?_ hroom
    unfold segmentBytes
    rw [List.append_assoc]
    exact (List.prefix_append ..).length_le
  obtain ⟨w, d, hcreate, hwriting, hwrote, hsparsity, -, -⟩ := run_of_room
    (@createNewSegment_runs levelNumber n factor dir hnew) hfaults (not_not.mpr hn) not_false
  obtain ⟨w', d', hentries, hwritten, -, hclear⟩ := run_of_room (writeEntries_runs es hwriting)
    (hwrote.faults hfaults) (by rwa [hsparsity]) (by rw [List.nil_append]; omega)
  rw [List.nil_append] at hwritten
  have hlong : (segmentBytes es w'.index.indices).length < 2 ^ 63 :=
    (segmentBytes_length_le hwritten.index).trans_lt hroom
  obtain ⟨w'', dir', hfooter, -⟩ := run_of_room (writeIndexAndFooter_runs hwritten)
    (hclear (hwrote.faults hfaults)) not_false (by omega)
  exact ⟨dir', .writer levelNumber n w w' w'' d d' hname hfresh hcreate hentries hfooter⟩

/-- A segment file answers every lookup with the entries that were written to it, whichever
writer made it and whichever entries it has indexed.
SOURCE: level/segment.rs:97-175, 333-449, 459-561 -/
theorem written_segment_answers {es : List SsTableEntry} {factor : ℕ} {dir dir' : Dir}
    {path : String} (hne : es ≠ []) (hasc : Ascending es) (hfits : ∀ e ∈ es, EntryFits e)
    (hwritten : Written es factor dir dir' path) :
    ∃ seg, Sst.Segment.fromFile dir' path = .ok (.ok seg) ∧
      es.head?.map SsTableEntry.key = some seg.firstKey ∧
      es.getLast?.map SsTableEntry.key = some seg.lastKey ∧
      ∀ key, seg.get key = .ok (entryFor es key) := by
  obtain ⟨⟨hmem, indices, hsub, hcontent, hlen⟩, levelNumber, n, hname⟩ :=
    written_complete hasc hfits hwritten
  obtain ⟨seg, hopen, hstored, -⟩ := fromFile_ok (numbers_of_filename hname) hmem hcontent hlen
    hne hasc hfits hsub
  have hanswers := Stored.answers hstored
  exact ⟨seg, hopen, hanswers.first, hanswers.last, hanswers.get⟩

/-- A flush of a value and a tombstone, and what is read from its file. -/
theorem written_segment_answers_pair : ∃ dir' path seg,
    Sst.Segment.fromFile dir' path = .ok (.ok seg) ∧ seg.firstKey = "a" ∧ seg.lastKey = "b" ∧
      seg.get "b" = .ok (some ⟨"b", none, 5⟩) ∧ seg.get "ab" = .ok none := by
  let es : List SsTableEntry := [⟨"a", some "1", 3⟩, ⟨"b", none, 5⟩]
  let table : Table := (Finmap.insert "a" ⟨some "1", 3⟩ ∅).insert "b" ⟨none, 5⟩
  have hasc : Ascending es := List.pairwise_pair.mpr (by decide)
  have hfits : ∀ e ∈ es, EntryFits e := by
    rintro e he
    obtain rfl | rfl := List.mem_pair.mp he
    · exact ⟨by decide, by decide⟩
    · exact ⟨by decide, by decide⟩
  have hholds : Holds table es := by
    intro key
    by_cases ha : key = "a"
    · subst ha
      rfl
    · by_cases hb : key = "b"
      · subst hb
        rfl
      · have hnone : entryFor es key = none := by
          simp [es, entryFor, Ne.symm ha, Ne.symm hb]
        rw [Finmap.lookup_insert_of_ne _ hb, Finmap.lookup_insert_of_ne _ ha, hnone]
        rfl
  have hname := determineSegmentFilename_eq 0 1
  rw [if_pos (by norm_num)] at hname
  obtain ⟨dir', hwritten⟩ : ∃ dir', Written es 2 Dir.empty dir' _ :=
    memtable_written hasc hfits hholds hname List.not_mem_nil (by norm_num) (by decide)
      (by decide) rfl
  obtain ⟨seg, hopen, hfirst, hlast, hget⟩ :=
    written_segment_answers (by decide) hasc hfits hwritten
  exact ⟨dir', _, seg, hopen, (Option.some.inj hfirst).symm, (Option.some.inj hlast).symm,
    hget "b", hget "ab"⟩

end Rkvs.Analysis

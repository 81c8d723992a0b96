import Rkvs.Analysis.CompactionThread
import Rkvs.Analysis.MergeNames
import Rkvs.Analysis.SegmentLookup
import Rkvs.Model.StorageEngine

/-!
# What a flush does

The table gets written to a file of its own, with a number above those of level zero, and the
segment of that file comes last in level zero. No other file is touched.
-/

set_option autoImplicit false

namespace Rkvs.Analysis

open Rkvs.Library Rkvs.Model Rkvs.Interface

/-! ## The file -/

/-- INTERNAL: the loop over the keys writes to its file only.
SOURCE: level/segment.rs:350-363 -/
theorem memtableLoop_among {path : String} {table : Table} {factor : ℕ} {keys : List String}
    {index : Sst.SegmentIndex} {counter offset : ℕ} {d d' : Dir} {res : Sst.SegmentIndex × ℕ}
    (h : (Sst.SegmentWriter.memtableLoop path table factor keys index counter offset).run d =
      .ok res d') : WroteAmong (· = path) d d' := by
  induction keys generalizing index counter offset d with
  | nil =>
    cases h
    exact WroteAmong.refl
  | cons key keys ih =>
    unfold Sst.SegmentWriter.memtableLoop at h
    obtain ⟨_, _, hindex, h₁⟩ := run_bind_eq_ok h
    obtain ⟨-, rfl⟩ := run_liftExec_eq_ok hindex
    obtain ⟨value, _, hvalue, h₂⟩ := run_bind_eq_ok h₁
    obtain ⟨-, rfl⟩ := run_liftExec_eq_ok hvalue
    obtain ⟨⟨⟩, d₁, hnumber, h₃⟩ := run_bind_eq_ok h₂
    obtain ⟨_, _, hadd, h₄⟩ := run_bind_eq_ok h₃
    obtain ⟨-, rfl⟩ := run_liftExec_eq_ok hadd
    obtain ⟨⟨⟩, d₂, hbytes, h₅⟩ := run_bind_eq_ok h₄
    obtain ⟨_, _, hoffset, h₆⟩ := run_bind_eq_ok h₅
    obtain ⟨-, rfl⟩ := run_liftExec_eq_ok hoffset
    obtain ⟨_, _, hcounter, hrest⟩ := run_bind_eq_ok h₆
    obtain ⟨-, rfl⟩ := run_liftExec_eq_ok hcounter
    have hentry := (writeAt_wroteTo hnumber).trans (writeAt_wroteTo hbytes)
    have hwrote : WroteAmong (· = path) _ _ := hentry.among rfl
    exact hwrote.trans (ih hrest)

/-- A flush writes to its own file only.
SOURCE: level/segment.rs:333-372 -/
theorem segmentFileFromMemtable_among {table : Table} {n factor : ℕ} {path : String} {d d' : Dir}
    (h : (Sst.SegmentWriter.segmentFileFromMemtable table n factor).run d = .ok path d') :
    Sst.Segment.determineSegmentFilename 0 n = .ok path ∧ WroteAmong (· = path) d d' := by
  unfold Sst.SegmentWriter.segmentFileFromMemtable at h
  obtain ⟨filepath, _, hpath, h₁⟩ := run_bind_eq_ok h
  obtain ⟨hfilename, rfl⟩ := run_liftExec_eq_ok hpath
  obtain ⟨⟨⟩, d₁, hopen, h₂⟩ := run_bind_eq_ok h₁
  obtain ⟨⟨index, offset⟩, d₂, hloop, h₃⟩ := run_bind_eq_ok h₂
  obtain ⟨⟨⟩, d₃, hindex, h₄⟩ := run_bind_eq_ok h₃
  obtain ⟨⟨⟩, d₄, hfooter, hend⟩ := run_bind_eq_ok h₄
  cases hend
  have hopened : WroteAmong (· = path) _ d₁ := (openWrite_wroteTo hopen).among rfl
  have hclosed := (writeAt_wroteTo hindex).trans (writeAt_wroteTo hfooter)
  exact ⟨hfilename, (hopened.trans (memtableLoop_among hloop)).trans (hclosed.among rfl)⟩

/-! ## The entries of a table -/

/-- INTERNAL: the entries of a table in the order of their keys. -/
theorem exists_tableEntries (table : Table) : ∃ es, Ascending es ∧ Holds table es := by
  have hmem : ∀ {e : SsTableEntry}, (e ∈ (table.keys.sort (· ≤ ·)).filterMap fun key =>
      (table.lookup key).map (SsTableEntry.fromValue key)) ↔
        table.lookup e.key = some ⟨e.value, e.sequenceNumber⟩ := by
    intro e
    rw [List.mem_filterMap]
    constructor
    · rintro ⟨key, -, hvalue⟩
      obtain ⟨value, hlookup, rfl⟩ := Option.map_eq_some_iff.mp hvalue
      exact hlookup
    · intro hlookup
      refine ⟨e.key, ?_, ?_⟩
      · rw [Finset.mem_sort, Finmap.mem_keys, ← Finmap.lookup_isSome, hlookup]
        rfl
      · rw [hlookup]
        rfl
  have hasc : Ascending ((table.keys.sort (· ≤ ·)).filterMap fun key =>
      (table.lookup key).map (SsTableEntry.fromValue key)) := by
    apply List.Pairwise.filterMap _ _ (Finset.sortedLT_sort table.keys).pairwise
    intro key key' hlt e he f hf
    obtain ⟨value, -, rfl⟩ := Option.map_eq_some_iff.mp he
    obtain ⟨value', -, rfl⟩ := Option.map_eq_some_iff.mp hf
    exact hlt
  refine ⟨_, hasc, fun key => ?_⟩
  cases hlookup : table.lookup key with
  | some value =>
    have hentry := entryFor_eq_some hasc ((@hmem (SsTableEntry.fromValue key value)).mpr hlookup)
    change entryFor _ key = _ at hentry
    rw [hentry]
    rfl
  | none =>
    symm
    apply Option.map_eq_none_iff.mpr
    apply List.find?_eq_none.mpr
    intro e he
    have hvalue := hmem.mp he
    rw [decide_eq_true_eq]
    rintro rfl
    rw [hlookup] at hvalue
    cases hvalue

theorem lookup_of_holds {table : Table} {es : List SsTableEntry} (hasc : Ascending es)
    (h : Holds table es) {e : SsTableEntry} (he : e ∈ es) :
    table.lookup e.key = some ⟨e.value, e.sequenceNumber⟩ := by
  rw [h e.key, entryFor_eq_some hasc he]
  rfl

theorem ne_nil_of_holds {table : Table} {es : List SsTableEntry} (h : Holds table es)
    (hne : table ≠ ∅) : es ≠ [] := by
  rintro rfl
  apply hne
  apply Finmap.ext_lookup
  intro key
  rw [h key, Finmap.lookup_empty]
  rfl

/-! ## The segment -/

/-- INTERNAL: the parts of a flush.
SOURCE: memtable_flusher.rs:27-37; sstable.rs:88-95 -/
theorem flush_eq_ok {table : Table} {f f' : Flusher}
    (h : (Flusher.flush table).run f = .ok () f') : ∃ path,
      (Sst.SegmentWriter.segmentFileFromMemtable table
        (f.sstable.levelZero.highestSegmentNumber + 1) f.indexSparsityFactor).run f.dir =
          .ok path f'.dir ∧
      f.sstable.addToLevelZero f'.dir path = .ok f'.sstable ∧
      f'.indexSparsityFactor = f.indexSparsityFactor := by
  unfold Flusher.flush at h
  obtain ⟨_, _, hget, h₁⟩ := run_bind_eq_ok h
  cases hget
  obtain ⟨number, _, hnumber, h₂⟩ := run_bind_eq_ok h₁
  obtain ⟨hnumber, rfl⟩ := run_liftExec_eq_ok hnumber
  obtain ⟨rfl, -⟩ := checkedAdd_eq_ok hnumber
  obtain ⟨_, _, hget, h₃⟩ := run_bind_eq_ok h₂
  cases hget
  obtain ⟨path, _, honDir, h₄⟩ := run_bind_eq_ok h₃
  obtain ⟨dir, hwrite, rfl⟩ := run_onPart_eq_ok honDir
  obtain ⟨_, _, hget, h₅⟩ := run_bind_eq_ok h₄
  cases hget
  obtain ⟨_, _, hget, h₆⟩ := run_bind_eq_ok h₅
  cases hget
  obtain ⟨sstable, _, hlift, h₇⟩ := run_bind_eq_ok h₆
  obtain ⟨hadd, rfl⟩ := run_liftExec_eq_ok hlift
  obtain ⟨⟨⟩, _, hmodify, h₈⟩ := run_bind_eq_ok h₇
  cases hmodify
  obtain ⟨_, _, hcompact, hend⟩ := run_bind_eq_ok h₈
  obtain ⟨-, rfl⟩ := run_liftExec_eq_ok hcompact
  cases hend
  exact ⟨path, hwrite, hadd, rfl⟩

/-- A flush adds a segment with the whole table, and the next number is free again.
SOURCE: memtable_flusher.rs:27-37; level/segment.rs:333-372; level.rs:248-267, 319-327 -/
theorem flush_adds {table : Table} {f f' : Flusher}
    (h : (Flusher.flush table).run f = .ok () f') (hne : table ≠ ∅)
    (hfits : ∀ key value, table.lookup key = some value →
      EntryFits (SsTableEntry.fromValue key value))
    (hfresh : ∀ n, f.sstable.levelZero.highestSegmentNumber < n → ∀ path,
      Sst.Segment.determineSegmentFilename 0 n = .ok path → path ∉ f.dir.names) :
    (∃ path s, Sst.Segment.fromFile f'.dir path = .ok (.ok s) ∧ Whole s ∧
      Holds table (entriesOf s) ∧ f.sstable.addToLevelZero f'.dir path = .ok f'.sstable) ∧
    ∀ n, f'.sstable.levelZero.highestSegmentNumber < n → ∀ path,
      Sst.Segment.determineSegmentFilename 0 n = .ok path → path ∉ f'.dir.names := by
  obtain ⟨path, hwrite, hadd, -⟩ := flush_eq_ok h
  obtain ⟨hname, hwrote⟩ := segmentFileFromMemtable_among hwrite
  have hnew := hfresh _ (Nat.lt_succ_self _) path hname
  obtain ⟨es, hasc, hholds⟩ := exists_tableEntries table
  have hentries : ∀ e ∈ es, EntryFits e := fun e he =>
    hfits e.key ⟨e.value, e.sequenceNumber⟩ (lookup_of_holds hasc hholds he)
  obtain ⟨⟨hmem, indices, hindex, hcontent, hlen⟩, -⟩ := written_complete hasc hentries
    (Written.memtable table _ hholds hname hnew hwrite)
  obtain ⟨s, hopen, hstored, -, -, -, hnumber, -⟩ := fromFile_ok (numbers_of_filename hname) hmem
    hcontent hlen (ne_nil_of_holds hholds hne) hasc hentries hindex
  refine ⟨⟨path, s, hopen, whole_of_stored hstored, ?_, hadd⟩, ?_⟩
  · rw [entriesOf_eq hstored]
    exact hholds
  · intro n hn other hother hmem'
    obtain ⟨hzero, -⟩ := addToLevelZero_eq hopen hadd
    unfold Sst.OverlappingLevel.highestSegmentNumber at hn hnumber
    rw [hzero, highestNumber_append, hnumber] at hn
    obtain hold | rfl := hwrote.added other hmem'
    · refine hfresh n ?_ other hother hold
      unfold Sst.OverlappingLevel.highestSegmentNumber
      omega
    · have heq := (numbers_inj hother hname).2
      dsimp only [Sst.OverlappingLevel.highestSegmentNumber] at heq
      omega

end Rkvs.Analysis

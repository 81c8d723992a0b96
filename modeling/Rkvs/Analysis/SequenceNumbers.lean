import Rkvs.Analysis.SegmentContents
import Rkvs.Interface.SequenceNumbers
import Rkvs.Library.Highest

/-!
# The highest sequence number of a segment

An opened segment records the highest sequence number of the entries from the last indexed one on.
It is that of all entries if and only if no older entry in front of them is newer than all of these.
-/

set_option autoImplicit false

namespace Rkvs.Analysis

open Rkvs.Library Rkvs.Model Rkvs.Interface

/-! ## Files -/

/-- A new segment file holds the entries and an index of those with an indexed number.
SOURCE: level/segment.rs:333-449 -/
theorem writtenFrom_content {es : List SsTableEntry} {factor first : ℕ} {dir dir' : Dir}
    {path : String} (hasc : Ascending es) (h : WrittenFrom es factor dir dir' path first) :
    (∃ levelNumber n, Sst.Segment.determineSegmentFilename levelNumber n = .ok path) ∧
      path ∈ dir'.names ∧
      dir'.content path = segmentBytes es (indexedPlaces factor first 0 es) ∧
      (segmentBytes es (indexedPlaces factor first 0 es)).length < 2 ^ 63 := by
  cases h with
  | memtable table n hholds hname hfresh hrun =>
    obtain ⟨hmem, hcontent, hlen⟩ := segmentFileFromMemtable_content hasc hholds hrun
    rw [content_of_not_mem hfresh, overwrite_empty] at hcontent
    exact ⟨⟨0, n, hname⟩, hmem, hcontent, hlen⟩
  | writer levelNumber n w w' w'' d d' hname hfresh hcreate hentries hfooter =>
    obtain ⟨hmem, hcontent, hlen⟩ := segmentWriter_content hname hcreate hentries hfooter
    rw [content_of_not_mem hfresh, overwrite_empty, List.length_nil, shiftedBytes_zero] at hcontent
    rw [content_of_not_mem hfresh, List.length_nil, shiftedBytes_zero] at hlen
    exact ⟨⟨levelNumber, n, hname⟩, hmem, hcontent, hlen⟩

/-! ## Opening -/

/-- INTERNAL: what an opened segment records is read from the last index entry on.
SOURCE: level/segment.rs:117-135 -/
theorem fromFile_highest {d : Dir} {path : String} {s : Sst.Segment}
    (h : Sst.Segment.fromFile d path = .ok (.ok s)) :
    Sst.SegmentIndex.fromBytes (((d.content path).drop s.dataBlockEnd).take
      ((d.content path).length - Sst.SEGMENT_FOOTER_LEN - s.dataBlockEnd)) = .ok s.index ∧
    ∃ entries, Sst.Segment.readTableEntries (d.content path)
      (s.index.indices.getLast?.elim 0 Sst.SegmentIndexEntry.offset) s.dataBlockEnd = .ok entries ∧
      s.highestSequenceNo = highest SsTableEntry.sequenceNumber entries := by
  unfold Sst.Segment.fromFile at h
  obtain ⟨⟨_, _⟩, -, hopen⟩ := exec_bind_eq_ok.mp h
  dsimp only at hopen
  split at hopen
  · cases hopen
  split at hopen
  · cases hopen
  split at hopen
  · cases hopen
  obtain ⟨len, hlen, hopen⟩ := exec_bind_eq_ok.mp hopen
  obtain ⟨bufLen, hbufLen, hopen⟩ := exec_bind_eq_ok.mp hopen
  obtain ⟨-, rfl⟩ := checkedSub_eq_ok hlen
  obtain ⟨-, rfl⟩ := checkedSub_eq_ok hbufLen
  obtain ⟨index, hindex, hopen⟩ := exec_bind_eq_ok.mp hopen
  obtain ⟨first, -, hopen⟩ := exec_bind_eq_ok.mp hopen
  obtain ⟨entries, hentries, hopen⟩ := exec_bind_eq_ok.mp hopen
  cases hopen
  refine ⟨hindex, entries, ?_, rfl⟩
  cases hlast : index.indices.getLast? with
  | none =>
    rw [hlast] at hentries
    exact hentries
  | some idx =>
    rw [hlast] at hentries
    exact hentries

/-- INTERNAL: a part of the entries is read from its place on. -/
theorem readRear_ok {es : List SsTableEntry} {indices : List Sst.SegmentIndexEntry}
    (hfits : ∀ e ∈ es, EntryFits e) (k : ℕ) :
    Sst.Segment.readTableEntries (segmentBytes es indices) (dataBlock (es.take k)).length
      (dataBlock es).length = .ok (es.drop k) := by
  have hsplit : dataBlock es = dataBlock (es.take k) ++ dataBlock (es.drop k) := by
    rw [← dataBlock_append, List.take_append_drop]
  refine readTableEntries_ok (dataBlock (es.take k)) (indices.flatMap
    Sst.SegmentIndexEntry.toBytes ++ Sst.footerToBytes (dataBlock es).length)
    (fun e he => hfits e (List.mem_of_mem_drop he)) ?_ rfl ?_
  · unfold segmentBytes
    rw [← hsplit, List.append_assoc]
  · rw [hsplit, List.length_append]

/-- A segment file opens to its entries, and what is recorded is the highest sequence number from
the last indexed entry on.
SOURCE: level/segment.rs:99-152 -/
theorem opened_highest {es : List SsTableEntry} {factor first : ℕ} {dir dir' : Dir}
    {path : String} (hne : es ≠ []) (hasc : Ascending es) (hfits : ∀ e ∈ es, EntryFits e)
    (h : WrittenFrom es factor dir dir' path first) :
    ∃ s, Sst.Segment.fromFile dir' path = .ok (.ok s) ∧ entriesOf s = es ∧
      s.highestSequenceNo = highest SsTableEntry.sequenceNumber
        (es.drop (lastIndexed first factor es.length)) := by
  obtain ⟨⟨levelNumber, n, hname⟩, hmem, hcontent, hlen⟩ := writtenFrom_content hasc h
  have hsub := indexedPlaces_sublist factor first 0 es
  have hlast := lastPlace_eq factor first es
  generalize indexedPlaces factor first 0 es = indices at hcontent hlen hsub hlast
  obtain ⟨s, hopen, hstored, -⟩ := fromFile_ok (numbers_of_filename hname) hmem hcontent
    (hlen.trans (by norm_num)) hne hasc hfits hsub
  obtain ⟨hindex, entries, hentries, hhighest⟩ := fromFile_highest hopen
  have hparts : (segmentBytes es indices).length = (dataBlock es).length +
      (indices.flatMap Sst.SegmentIndexEntry.toBytes).length + 12 := by
    unfold segmentBytes
    simp [Sst.footerToBytes, Sst.MAGIC_BYTES, Nat.add_assoc]
  have hbytes : ((segmentBytes es indices).drop (dataBlock es).length).take
      ((segmentBytes es indices).length - Sst.SEGMENT_FOOTER_LEN - (dataBlock es).length) =
      indices.flatMap Sst.SegmentIndexEntry.toBytes := by
    have hcount : (segmentBytes es indices).length - Sst.SEGMENT_FOOTER_LEN -
        (dataBlock es).length = (indices.flatMap Sst.SegmentIndexEntry.toBytes).length := by
      rw [hparts, show Sst.SEGMENT_FOOTER_LEN = 12 from rfl]
      omega
    rw [hcount]
    unfold segmentBytes
    rw [List.append_assoc, List.drop_left, List.take_left]
  have hfits' : ∀ x ∈ indices, IndexFits x := fun x hx =>
    indexFits_of_places hfits (by omega) (hsub.subset hx)
  rw [hcontent, hstored.dataEnd, hbytes, indexFromBytes_ok hfits' (by omega)] at hindex
  rw [hcontent, hstored.dataEnd, ← Except.ok.inj hindex] at hentries
  dsimp only at hentries
  rw [hlast, readRear_ok hfits] at hentries
  refine ⟨s, hopen, entriesOf_eq hstored, ?_⟩
  rw [hhighest, Except.ok.inj hentries]

/-! ## The table -/

/-- SOURCE: sstable.rs:107-128; level.rs:801-809, 844-852 -/
theorem highestSequenceNumber_eq (c : Sst.LevelContainer) :
    c.highestSequenceNumber = highest Sst.Segment.highestSequenceNo (allSegments c) := by
  apply eq_of_forall_ge_iff
  intro n
  have hzero : (if Sst.highestSequenceNo c.levelZero.segments > 0 then
      Sst.highestSequenceNo c.levelZero.segments else 0) =
        highest Sst.Segment.highestSequenceNo c.levelZero.segments := by
    show (if highest Sst.Segment.highestSequenceNo c.levelZero.segments > 0 then _ else 0) = _
    split
    · rfl
    · omega
  have hlevel : ∀ level : Sst.PartitionedLevel, Sst.highestSequenceNo level.segments =
      highest Sst.Segment.highestSequenceNo level.segments := fun _ => rfl
  unfold Sst.LevelContainer.highestSequenceNumber allSegments
  dsimp only
  rw [hzero, foldl_highest_le_iff, highest_le_iff, highest_le_iff]
  simp only [hlevel, highest_le_iff, List.mem_append, List.mem_flatMap]
  constructor
  · rintro ⟨hleft, hright⟩ s (hs | ⟨level, hmem, hs⟩)
    · exact hleft s hs
    · exact hright level hmem s hs
  · intro hall
    exact ⟨fun s hs => hall s (Or.inl hs), fun level hmem s hs => hall s (Or.inr ⟨level, hmem, hs⟩)⟩

/-- A table of segments that record the highest sequence numbers has the highest of all.
SOURCE: sstable.rs:107-128 -/
theorem isGreatest_highestSequenceNumber {c : Sst.LevelContainer} (hne : allSegments c ≠ [])
    (h : ∀ s ∈ allSegments c, RecordsHighest s) :
    IsGreatest (sequenceNumbers (allEntries (allSegments c))) c.highestSequenceNumber := by
  rw [highestSequenceNumber_eq]
  obtain ⟨top, htop, heq⟩ := exists_eq_highest Sst.Segment.highestSequenceNo hne
  obtain ⟨⟨e, he, hnumber⟩, -⟩ := h top htop
  refine ⟨⟨e, mem_allEntries.mpr ⟨top, htop, he⟩, hnumber.trans heq⟩, ?_⟩
  rintro _ ⟨f, hf, rfl⟩
  obtain ⟨s, hs, hfs⟩ := mem_allEntries.mp hf
  exact ((h s hs).2 ⟨f, hfs, rfl⟩).trans (le_highest Sst.Segment.highestSequenceNo hs)

/-! ## Written segments -/

/-- The highest sequence number is recorded if and only if every entry in front of the last indexed
one has an entry from there on that is at least as new.
SOURCE: level/segment.rs:99-152, 333-449; sstable.rs:107-128 -/
theorem highest_recorded_iff {es : List SsTableEntry} {factor first : ℕ} {dir dir' : Dir}
    {path : String} (hne : es ≠ []) (hasc : Ascending es) (hfits : ∀ e ∈ es, EntryFits e)
    (hwritten : WrittenFrom es factor dir dir' path first) :
    OpensWithHighest dir' path es ↔
      ∀ e ∈ es.take (lastIndexed first factor es.length),
        ∃ f ∈ es.drop (lastIndexed first factor es.length), e.sequenceNumber ≤ f.sequenceNumber := by
  obtain ⟨s, hopen, hentries, hhighest⟩ := opened_highest hne hasc hfits hwritten
  have hplace : lastIndexed first factor es.length ≤ es.length - 1 := Nat.findGreatest_le _
  generalize lastIndexed first factor es.length = k at hhighest hplace
  have hrear : es.drop k ≠ [] := by
    have hpos := List.length_pos_of_ne_nil hne
    intro hnil
    have hlen := congrArg List.length hnil
    rw [List.length_drop, List.length_nil] at hlen
    omega
  have hiff := @isGreatest_rear_iff _ SsTableEntry.sequenceNumber (es.take k) _ hrear
  rw [List.take_append_drop, ← hhighest] at hiff
  refine Iff.trans ⟨?_, fun hgreatest => ?_⟩ hiff
  · rintro ⟨t, hopen', -, hgreatest, -⟩
    obtain rfl : s = t := Except.ok.inj (Except.ok.inj (hopen.symm.trans hopen'))
    exact hgreatest
  · refine ⟨s, hopen, hentries, hgreatest, fun c hs hothers => ?_⟩
    refine isGreatest_highestSequenceNumber (List.ne_nil_of_mem hs) fun t ht => ?_
    by_cases hsame : t = s
    · rw [hsame]
      unfold RecordsHighest
      rw [hentries]
      exact hgreatest
    · exact hothers t ht hsame

theorem exists_writtenFrom {es : List SsTableEntry} {factor : ℕ} {dir dir' : Dir} {path : String}
    (h : Written es factor dir dir' path) : ∃ first, WrittenFrom es factor dir dir' path first := by
  cases h with
  | memtable table n hholds hname hfresh hrun =>
    exact ⟨0, .memtable table n hholds hname hfresh hrun⟩
  | writer levelNumber n w w' w'' d d' hname hfresh hcreate hentries hfooter =>
    exact ⟨1, .writer levelNumber n w w' w'' d d' hname hfresh hcreate hentries hfooter⟩

/-- INTERNAL: a file with the keys a and b, both of them indexed. -/
theorem exists_pair (m n : ℕ) (hm : m < 2 ^ 64) (hn : n < 2 ^ 64) : ∃ first dir' path,
    Ascending [⟨"a", some "1", m⟩, ⟨"b", none, n⟩] ∧
    (∀ e ∈ [(⟨"a", some "1", m⟩ : SsTableEntry), ⟨"b", none, n⟩], EntryFits e) ∧
    WrittenFrom [⟨"a", some "1", m⟩, ⟨"b", none, n⟩] 1 Dir.empty dir' path first ∧
    lastIndexed first 1 2 = 1 := by
  have hfits : ∀ e ∈ [(⟨"a", some "1", m⟩ : SsTableEntry), ⟨"b", none, n⟩], EntryFits e := by
    intro e he
    obtain rfl | rfl := List.mem_pair.mp he
    · exact ⟨show SsTableEntry.len ⟨"a", some "1", 0⟩ < 2 ^ 32 by decide, hm⟩
    · exact ⟨show SsTableEntry.len ⟨"b", none, 0⟩ < 2 ^ 32 by decide, hn⟩
  have hname := determineSegmentFilename_eq 1 1
  rw [if_pos (by norm_num)] at hname
  obtain ⟨dir', hwritten⟩ : ∃ dir',
      Written [⟨"a", some "1", m⟩, ⟨"b", none, n⟩] 1 Dir.empty dir' _ := by
    refine writer_written hname List.not_mem_nil (by norm_num) ?_ rfl
    have hlen : (segmentBytes [⟨"a", some "1", 0⟩, ⟨"b", none, 0⟩]
        (indexPlaces 0 [⟨"a", some "1", 0⟩, ⟨"b", none, 0⟩])).length < 2 ^ 63 := by decide
    have hsame : (segmentBytes [⟨"a", some "1", m⟩, ⟨"b", none, n⟩]
        (indexPlaces 0 [⟨"a", some "1", m⟩, ⟨"b", none, n⟩])).length =
          (segmentBytes [⟨"a", some "1", 0⟩, ⟨"b", none, 0⟩]
            (indexPlaces 0 [⟨"a", some "1", 0⟩, ⟨"b", none, 0⟩])).length := by
      simp [segmentBytes, indexPlaces, Sst.footerToBytes, SsTableEntry.len]
    rwa [hsame]
  obtain ⟨first, hfrom⟩ := exists_writtenFrom hwritten
  have hkeys : "a" < "b" := by decide
  refine ⟨first, dir', _, List.pairwise_pair.mpr hkeys, hfits, hfrom, ?_⟩
  exact Nat.findGreatest_eq (Nat.mod_one _)

/-- The newest entry comes last. -/
theorem highest_recorded_pair : ∃ dir' path,
    OpensWithHighest dir' path [⟨"a", some "1", 1⟩, ⟨"b", none, 2⟩] := by
  obtain ⟨first, dir', path, hasc, hfits, hwritten, hplace⟩ :=
    exists_pair 1 2 (by norm_num) (by norm_num)
  refine ⟨dir', path, (highest_recorded_iff (by simp) hasc hfits hwritten).mpr ?_⟩
  rw [show [(⟨"a", some "1", 1⟩ : SsTableEntry), ⟨"b", none, 2⟩].length = 2 from rfl, hplace]
  decide

/-- The newest entry comes first: the sequence number of the last one is recorded. -/
theorem highest_not_recorded : ¬∀ {es : List SsTableEntry} {factor first : ℕ} {dir dir' : Dir}
    {path : String}, es ≠ [] → Ascending es → (∀ e ∈ es, EntryFits e) →
    WrittenFrom es factor dir dir' path first → OpensWithHighest dir' path es := by
  intro h
  obtain ⟨first, dir', path, hasc, hfits, hwritten, hplace⟩ :=
    exists_pair 2 1 (by norm_num) (by norm_num)
  obtain ⟨s, hopen, -, hgreatest, -⟩ := h (by simp) hasc hfits hwritten
  obtain ⟨t, hopen', -, hhighest⟩ := opened_highest (by simp) hasc hfits hwritten
  rw [show [(⟨"a", some "1", 2⟩ : SsTableEntry), ⟨"b", none, 1⟩].length = 2 from rfl, hplace]
    at hhighest
  obtain rfl : s = t := Except.ok.inj (Except.ok.inj (hopen.symm.trans hopen'))
  have hle := hgreatest.2 ⟨_, List.mem_cons_self .., rfl⟩
  rw [hhighest] at hle
  exact absurd hle (by decide)

end Rkvs.Analysis

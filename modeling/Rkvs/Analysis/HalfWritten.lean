import Rkvs.Analysis.SegmentLookup
import Rkvs.Interface.HalfWritten

/-!
# Half-written segment files

A file is found to be corrupted by its last four bytes alone. The first bytes of a segment are
therefore recognised if they are long enough for a footer and do not happen to end with the magic
bytes; a shorter file makes the restart fail.
-/

set_option autoImplicit false

namespace Rkvs.Analysis

open Rkvs.Library Rkvs.Model Rkvs.Interface

/-! ## Opening -/

/-- INTERNAL: the last bytes of the footer of a file are the last bytes of the file. -/
theorem drop_footer {file : Bytes} (h : Sst.SEGMENT_FOOTER_LEN ≤ file.length) :
    (file.drop (file.length - Sst.SEGMENT_FOOTER_LEN)).drop 8 = Sst.MAGIC_BYTES ↔
      Sst.MAGIC_BYTES <:+ file := by
  have hfooter : Sst.SEGMENT_FOOTER_LEN = 12 := rfl
  have hmagic : Sst.MAGIC_BYTES.length = 4 := rfl
  rw [List.drop_drop]
  constructor
  · intro heq
    rw [← heq]
    exact List.drop_suffix ..
  · intro hsuffix
    have hplace : file.length - Sst.SEGMENT_FOOTER_LEN + 8 =
        file.length - Sst.MAGIC_BYTES.length := by omega
    rw [hplace]
    exact (List.suffix_iff_eq_drop.mp hsuffix).symm

/-- A file with the name of a segment is found to be corrupted if and only if it has room for a
footer and ends with other bytes than the magic ones.
SOURCE: level/segment.rs:99-152 -/
theorem fromFile_corrupted_iff {d : Dir} {path : String} {levelNo segmentNo : ℕ}
    (hname : Sst.Segment.levelAndSegmentNumberFromFilename path = .ok (levelNo, segmentNo))
    (hmem : path ∈ d.names) :
    Sst.Segment.fromFile d path = .ok (.error .corrupted) ↔
      Sst.SEGMENT_FOOTER_LEN ≤ (d.content path).length ∧ ¬Sst.MAGIC_BYTES <:+ d.content path := by
  unfold Sst.Segment.fromFile
  simp only [hname, exec_ok_bind]
  rw [if_neg (not_not.mpr hmem)]
  by_cases hshort : (d.content path).length < Sst.SEGMENT_FOOTER_LEN
  · -- there is no footer to seek to
    rw [if_pos hshort]
    constructor
    · intro h
      cases h
    · intro h
      exact absurd h.1 (Nat.not_le.mpr hshort)
  rw [if_neg hshort]
  have hlen := Nat.le_of_not_lt hshort
  by_cases hmagic : Sst.MAGIC_BYTES <:+ d.content path
  · -- what follows never ends with this error
    rw [if_neg (not_not.mpr ((drop_footer hlen).mpr hmagic))]
    constructor
    · intro h
      obtain ⟨_, -, h₁⟩ := exec_bind_eq_ok.mp h
      obtain ⟨_, -, h₂⟩ := exec_bind_eq_ok.mp h₁
      obtain ⟨_, -, h₃⟩ := exec_bind_eq_ok.mp h₂
      obtain ⟨_, -, h₄⟩ := exec_bind_eq_ok.mp h₃
      obtain ⟨_, -, h₅⟩ := exec_bind_eq_ok.mp h₄
      cases h₅
    · intro h
      exact absurd hmagic h.2
  · rw [if_pos fun heq => hmagic ((drop_footer hlen).mp heq)]
    exact ⟨fun _ => ⟨hlen, hmagic⟩, fun _ => rfl⟩

/-- INTERNAL: a corrupted file is removed.
SOURCE: level.rs:96-110 -/
theorem recognised_of_corrupted {d : Dir} {path : String}
    (h : Sst.Segment.fromFile d path = .ok (.error .corrupted)) : Recognised d path where
  corrupted := h
  removed hfaults hmem others := by
    have hremove : (Dir.remove path).run d = .ok () (d.removeFile path) := by
      unfold Dir.remove
      rw [run_bind_ok (Dir.nextEvent_ok hfaults)]
      dsimp only
      rw [run_bind_ok (EStateM.run_get d), if_neg (not_not.mpr hmem)]
      rfl
    rw [Sst.LevelContainer.openSegments, run_bind_ok (EStateM.run_get d), h,
      run_bind_ok (run_liftExec_ok ..)]
    dsimp only
    rw [run_bind_ok (Dir.tryRemove_of_ok hremove)]

/-- INTERNAL: entries are written to a file with the name of a segment. -/
theorem exists_name {es : List SsTableEntry} {factor : ℕ} {dir dir' : Dir} {path : String}
    (h : Written es factor dir dir' path) :
    ∃ levelNumber n, Sst.Segment.determineSegmentFilename levelNumber n = .ok path := by
  cases h with
  | memtable table n _ hname _ _ => exact ⟨0, n, hname⟩
  | writer levelNumber n _ _ _ _ _ hname _ _ _ _ => exact ⟨levelNumber, n, hname⟩

/-! ## Prefixes of a segment file -/

/-- The first bytes of a segment file are recognised if and only if they have the length of a
footer and do not end with the magic bytes.
SOURCE: level/segment.rs:99-152; level.rs:96-110 -/
theorem prefix_recognised_iff {es : List SsTableEntry} {factor : ℕ} {dir dir' : Dir}
    {path : String} (hwritten : Written es factor dir dir' path) {n : ℕ}
    (hn : n < (dir'.content path).length) {d : Dir} (hmem : path ∈ d.names)
    (hcontent : d.content path = (dir'.content path).take n) :
    Recognised d path ↔
      Sst.SEGMENT_FOOTER_LEN ≤ n ∧ ¬Sst.MAGIC_BYTES <:+ (dir'.content path).take n := by
  obtain ⟨levelNumber, number, hname⟩ := exists_name hwritten
  have hiff := fromFile_corrupted_iff (numbers_of_filename hname) hmem
  have hlength : (d.content path).length = n := by
    rw [hcontent, List.length_take, Nat.min_eq_left hn.le]
  rw [hlength, hcontent] at hiff
  exact ⟨fun h => hiff.mp h.corrupted, fun h => recognised_of_corrupted (hiff.mpr h)⟩

/-- INTERNAL: a segment file with one entry. -/
theorem exists_oneEntry : ∃ dir' path, Written [⟨"a", some "1", 3⟩] 1 Dir.empty dir' path ∧
    dataBlock [⟨"a", some "1", 3⟩] <+: dir'.content path := by
  have hname := determineSegmentFilename_eq 1 1
  rw [if_pos (by norm_num)] at hname
  have hasc : Ascending [⟨"a", some "1", 3⟩] := List.pairwise_singleton ..
  have hfits : ∀ e ∈ [(⟨"a", some "1", 3⟩ : SsTableEntry)], EntryFits e := by
    intro e he
    obtain rfl := List.mem_singleton.mp he
    exact ⟨by decide, by decide⟩
  obtain ⟨dir', hwritten⟩ : ∃ dir', Written [⟨"a", some "1", 3⟩] 1 Dir.empty dir' _ :=
    writer_written hname List.not_mem_nil (by norm_num) (by decide) rfl
  obtain ⟨⟨-, indices, -, hcontent, -⟩, -⟩ := written_complete hasc hfits hwritten
  refine ⟨dir', _, hwritten, ?_⟩
  rw [hcontent]
  unfold segmentBytes
  rw [List.append_assoc]
  exact List.prefix_append ..

/-- Cut within its entry, the file is recognised. -/
theorem prefix_recognised_entry : ∃ dir' path d,
    Written [⟨"a", some "1", 3⟩] 1 Dir.empty dir' path ∧
    d.content path = (dir'.content path).take 14 ∧ Recognised d path := by
  obtain ⟨dir', path, hwritten, rest, hcontent⟩ := exists_oneEntry
  have hmem : path ∈ (dir'.put path ((dir'.content path).take 14)).names :=
    Dir.mem_names_put.mpr (Or.inl rfl)
  have hlen : 14 < (dataBlock [⟨"a", some "1", 3⟩]).length := by decide
  have htake : (dir'.content path).take 14 = (dataBlock [⟨"a", some "1", 3⟩]).take 14 := by
    rw [← hcontent, List.take_append_of_le_length (by omega)]
  refine ⟨dir', path, dir'.put path ((dir'.content path).take 14), hwritten,
    Dir.content_put .., ?_⟩
  refine (prefix_recognised_iff hwritten ?_ hmem (Dir.content_put ..)).mpr ⟨by decide, ?_⟩
  · rw [← hcontent, List.length_append]
    omega
  · rw [htake]
    decide

/-- A file to which nothing has been written makes the restart fail. -/
theorem empty_prefix_not_recognised : ¬∀ {es : List SsTableEntry} {factor : ℕ} {dir dir' : Dir}
    {path : String}, Written es factor dir dir' path → ∀ {n : ℕ},
    n < (dir'.content path).length → ∀ {d : Dir}, path ∈ d.names →
    d.content path = (dir'.content path).take n → Recognised d path := by
  intro h
  obtain ⟨dir', path, hwritten, hprefix⟩ := exists_oneEntry
  have hpos : 0 < (dir'.content path).length :=
    (show 0 < (dataBlock [⟨"a", some "1", 3⟩]).length by decide).trans_le hprefix.length_le
  have hmem : path ∈ (dir'.put path []).names := Dir.mem_names_put.mpr (Or.inl rfl)
  have hrecognised := h hwritten hpos hmem (Dir.content_put ..)
  obtain ⟨levelNumber, number, hname⟩ := exists_name hwritten
  obtain ⟨hlen, -⟩ := (fromFile_corrupted_iff (numbers_of_filename hname) hmem).mp
    hrecognised.corrupted
  rw [Dir.content_put] at hlen
  cases hlen

end Rkvs.Analysis

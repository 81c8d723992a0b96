import Rkvs.Analysis.LogFiles
import Rkvs.Analysis.WalAppend

/-!
# Starting from the files of a log

What `start` makes of a directory, by what recovery from its files comes to: a new log, the
last file with data in it, or the file of the record that is left over or corrupted, cut off
where that record begins and without the files after it.
-/

set_option autoImplicit false

namespace Rkvs.Analysis

open Rkvs.Library Rkvs.Model Rkvs.Interface

section
variable {crc : Bytes → UInt32} {s : SegmentSize} {dir : Dir} {fs : List (ℕ × Bytes)}

/-- INTERNAL: the end seen grows with the file. -/
theorem endSeen_mono (base : ℕ) {fileSize fileSize' : ℕ} (h : fileSize ≤ fileSize') :
    s.endSeen base fileSize ≤ s.endSeen base fileSize' := by
  unfold SegmentSize.endSeen
  exact Nat.add_le_add_left (Nat.mul_le_mul_right _ h) _

/-- INTERNAL: only an empty file below LSN 2^32 is not listed. -/
theorem endSeen_pos_iff (base cut : ℕ) :
    0 < s.endSeen base cut ↔ (cut = 0 → 2 ^ 32 ≤ base) := by
  have hdiv : 0 < base / 2 ^ 32 ↔ 2 ^ 32 ≤ base := Nat.div_pos_iff.trans (by simp)
  unfold SegmentSize.endSeen
  constructor
  · rintro h rfl
    rw [← hdiv]
    omega
  · intro h
    by_cases hcut : cut = 0
    · have hpos := hdiv.mpr (h hcut)
      omega
    · exact s.endSeen_pos base (Nat.pos_of_ne_zero hcut)

/-- INTERNAL: the end seen is an LSN when the end of the data is. -/
theorem endSeen_lt_iff {base fileSize : ℕ} (hdvd : s.val ∣ base) (hbase : base < 2 ^ 64)
    (hsize : fileSize ≤ s.val) :
    s.endSeen base fileSize < 2 ^ 64 ↔ base + fileSize < 2 ^ 64 := by
  have hle := s.endSeen_le hdvd hsize
  constructor
  · intro hend
    by_contra hover
    have hroom : base + s.val ≤ 2 ^ 64 :=
      Nat.le_of_lt_add_of_dvd (Nat.add_lt_add_right hbase _) (Nat.dvd_add hdvd (Nat.dvd_refl _))
        (s.dvd.trans (Nat.pow_dvd_pow 2 (by omega)))
    have hfull : fileSize = s.val := by omega
    rw [hfull, s.endSeen_full hdvd] at hend
    omega
  · intro hroom
    omega

namespace SegmentFiles

theorem start_panic (h : SegmentFiles s dir fs) {f : ℕ × Bytes} (hf : f ∈ fs)
    (hend : ¬s.endSeen f.1 f.2.length < 2 ^ 64) (n maxSize : ℕ) :
    MemTable.start crc dir s.val n maxSize = .error .panic := by
  unfold MemTable.start MemTable.findAndOpenSegments
  rw [h.listSegmentFiles_panic hf hend, exec_error_bind, exec_error_bind]

/-- INTERNAL: a start that recovery lets panic. -/
theorem start_recover_panic (h : SegmentFiles s dir fs)
    (hend : ∀ f ∈ fs, s.endSeen f.1 f.2.length < 2 ^ 64) {n : ℕ} (hkept : keptAfter s n fs ≠ [])
    (hrecover : MemTable.recover crc dir ((keptAfter s n fs).map (openedSegment s)) (n % s.val) ∅ =
      .error .panic) (maxSize : ℕ) :
    MemTable.start crc dir s.val n maxSize = .error .panic := by
  unfold MemTable.start
  rw [h.findAndOpenSegments_eq hend, exec_ok_bind, if_neg (by simpa using hkept),
    checkedMod_ok s.pos, exec_ok_bind, hrecover, exec_error_bind]

/-- Without files to recover from a new log is started.
SOURCE: memtable.rs:84-88 -/
theorem start_fresh (h : SegmentFiles s dir fs) (hfaults : dir.faults = [])
    (hend : ∀ f ∈ fs, s.endSeen f.1 f.2.length < 2 ^ 64) {n : ℕ} (hkept : keptAfter s n fs = [])
    (maxSize : ℕ) :
    ∃ w, MemTable.start crc dir s.val n maxSize = .ok ⟨∅, w, 0, maxSize⟩ ∧
      ActiveAt s w [] 0 [] (fs.filter fun f => 0 < f.1) := by
  obtain ⟨w, hcreate, hactive⟩ := h.createNew_ok hfaults
  refine ⟨w, ?_, hactive⟩
  unfold MemTable.start
  rw [h.findAndOpenSegments_eq hend, exec_ok_bind, hkept, List.map_nil, if_pos rfl, hcreate,
    exec_ok_bind]
  rfl

/-- After a recovery without an error the last file with data in it is written to.
SOURCE: memtable.rs:60-66 -/
theorem start_clean {front stale : List (ℕ × Bytes)} {base : ℕ} {content : Bytes}
    (h : SegmentFiles s dir (front ++ (base, content) :: stale)) (hfaults : dir.faults = [])
    (hend : ∀ f ∈ front ++ (base, content) :: stale, s.endSeen f.1 f.2.length < 2 ^ 64) {n : ℕ}
    (hkept : keptAfter s n (front ++ (base, content) :: stale) ≠ []) {table : Table} {size : ℕ}
    (hrecover : MemTable.recover crc dir
      ((keptAfter s n (front ++ (base, content) :: stale)).map (openedSegment s)) (n % s.val) ∅ =
        .ok (table, .ok size))
    (hlast : 0 < s.endSeen base content.length)
    (hstale : ∀ f ∈ stale, s.endSeen f.1 f.2.length = 0) (maxSize : ℕ) :
    ∃ w, MemTable.start crc dir s.val n maxSize = .ok ⟨table, w, size, maxSize⟩ ∧
      ActiveAt s w front base content stale := by
  have hkept_last : (keptAfter s 0 (front ++ (base, content) :: stale)).getLast? =
      some (base, content) := by
    have hnone : stale.filter (fun f => 0 < s.endSeen f.1 f.2.length) = [] := by
      apply List.filter_eq_nil_iff.mpr
      intro f hf
      rw [hstale f hf]
      simp
    unfold keptAfter
    rw [List.filter_append, List.filter_cons_of_pos (by simpa using hlast), hnone]
    simp
  refine ⟨⟨openedSegment s (base, content), s.val, dir⟩, ?_, h, hfaults, rfl, rfl⟩
  unfold MemTable.start
  rw [h.findAndOpenSegments_eq hend, exec_ok_bind, if_neg (by simpa using hkept),
    checkedMod_ok s.pos, exec_ok_bind, hrecover]
  simp only [exec_ok_bind]
  rw [h.openLastSegment_eq hend, hkept_last]
  rfl

/-- INTERNAL: a file lies a segment size before every later one. -/
theorem add_le {front rear : List (ℕ × Bytes)} {base : ℕ} {content : Bytes}
    (h : SegmentFiles s dir (front ++ (base, content) :: rear)) {f : ℕ × Bytes} (hf : f ∈ front) :
    f.1 + s.val ≤ base := by
  have hlt := (List.pairwise_append.mp h.sorted).2.2 f hf _ (List.mem_cons_self ..)
  have hdvd := h.dvd f (List.mem_append_left _ hf)
  have hdvd' := h.dvd (base, content) (by simp)
  exact Nat.le_of_lt_add_of_dvd (Nat.add_lt_add_right hlt _)
    (Nat.dvd_add hdvd (Nat.dvd_refl _)) hdvd'

/-- INTERNAL: a file does not seem to end behind the beginning of a later one. -/
theorem endSeen_le_base {front rear : List (ℕ × Bytes)} {base : ℕ} {content : Bytes}
    (h : SegmentFiles s dir (front ++ (base, content) :: rear)) {f : ℕ × Bytes} (hf : f ∈ front) :
    s.endSeen f.1 f.2.length ≤ base := by
  have hmem : f ∈ front ++ (base, content) :: rear := List.mem_append_left _ hf
  have hadd := h.add_le hf
  have hle := s.endSeen_le (h.dvd f hmem) (h.size_le f hmem)
  have hsize := h.size_le f hmem
  omega

/-- INTERNAL: only the last file can seem to end behind all LSNs. -/
theorem end_lt_iff {front : List (ℕ × Bytes)} {base : ℕ} {content : Bytes}
    (h : SegmentFiles s dir (front ++ [(base, content)])) :
    (∀ f ∈ front ++ [(base, content)], s.endSeen f.1 f.2.length < 2 ^ 64) ↔
      s.endSeen base content.length < 2 ^ 64 := by
  have hbase := h.lt (base, content) (by simp)
  constructor
  · intro hend
    exact hend (base, content) (by simp)
  · intro hlast f hf
    obtain hf | hf := List.mem_append.mp hf
    · exact lt_of_le_of_lt (h.endSeen_le_base hf) hbase
    · rw [List.mem_singleton.mp hf]
      exact hlast

/-- INTERNAL: only files behind the one that was cut off can end after its new end. -/
theorem filter_cut {front rear : List (ℕ × Bytes)} {base : ℕ} {content : Bytes}
    (h : SegmentFiles s dir (front ++ (base, content) :: rear)) :
    (front ++ (base, content) :: rear).filter
        (fun f => ¬base + content.length < s.endSeen f.1 f.2.length) =
      front ++ (base, content) ::
        rear.filter fun f => ¬base + content.length < s.endSeen f.1 f.2.length := by
  have hbase : (base, content) ∈ front ++ (base, content) :: rear := by simp
  have hend := s.endSeen_le (h.dvd _ hbase) (h.size_le _ hbase)
  dsimp only at hend
  have hfront : front.filter (fun f => ¬base + content.length < s.endSeen f.1 f.2.length) =
      front := by
    apply List.filter_eq_self.mpr
    intro f hf
    have hle := h.endSeen_le_base hf
    apply decide_eq_true
    omega
  rw [List.filter_append, hfront, List.filter_cons_of_pos]
  exact decide_eq_true (Nat.not_lt.mpr hend)

/-- After a recovery that reports a corruption the log ends where this was found. The files
behind are removed as far as they seem to end after the new end.
SOURCE: memtable.rs:67-81 -/
theorem start_repair {front rear : List (ℕ × Bytes)} {base : ℕ} {content : Bytes}
    (h : SegmentFiles s dir (front ++ (base, content) :: rear)) (hfaults : dir.faults = [])
    (hend : ∀ f ∈ front ++ (base, content) :: rear, s.endSeen f.1 f.2.length < 2 ^ 64) {n : ℕ}
    (hkept : keptAfter s n (front ++ (base, content) :: rear) ≠ [])
    (hlisted : 0 < s.endSeen base content.length) {table : Table} {size offset : ℕ}
    (hrecover : MemTable.recover crc dir
      ((keptAfter s n (front ++ (base, content) :: rear)).map (openedSegment s)) (n % s.val) ∅ =
        .ok (table, .error (size, .corrupted (s.fileName base) offset)))
    (hoffset : offset ≤ content.length) (hnext : base + offset < 2 ^ 64) (maxSize : ℕ) :
    ∃ w, MemTable.start crc dir s.val n maxSize = .ok ⟨table, w, size, maxSize⟩ ∧
      ActiveAt s w front base (content.take offset)
        (rear.filter fun f => ¬base + offset < s.endSeen f.1 f.2.length) := by
  have hmem : (base, content) ∈ front ++ (base, content) :: rear := by simp
  have hlen : (content.take offset).length = offset := by
    rw [List.length_take, Nat.min_eq_left hoffset]
  have hsize := h.size_le _ hmem
  dsimp only at hsize
  have hcut := h.put rfl (content.take offset) (by omega)
  have hend' : ∀ f ∈ front ++ (base, content.take offset) :: rear,
      s.endSeen f.1 f.2.length < 2 ^ 64 := by
    intro f hf
    obtain hf | hf := List.mem_append.mp hf
    · exact hend f (List.mem_append_left _ hf)
    · obtain rfl | hf := List.mem_cons.mp hf
      · have hlt := hend (base, content) hmem
        exact lt_of_le_of_lt (endSeen_mono base (List.length_take_le' ..)) hlt
      · exact hend f (List.mem_append_right _ (List.mem_cons_of_mem _ hf))
  have htruncate := h.truncateAndOpen_eq hend hmem hlisted hoffset
  have hlsn : (openedSegment s (base, content.take offset)).nextLsn = .ok (base + offset) := by
    unfold Segment.nextLsn
    rw [openedSegment_baseLsn, openedSegment_fileSize, hlen]
    exact checkedAdd_ok hnext
  have hremoved := hcut.removeKept (base + offset)
  have hkeep := hcut.filter_cut
  rw [hlen] at hkeep
  rw [hkeep] at hremoved
  have hnone : ∀ (names : List String) (d : Dir), d.faults = [] →
      (names.foldl Dir.removeFile d).faults = [] := by
    intro names
    induction names with
    | nil => exact fun d hd => hd
    | cons name names ih => exact fun d hd => ih _ hd
  refine ⟨⟨openedSegment s (base, content.take offset), s.val, _⟩, ?_, hremoved,
    hnone _ _ hfaults, rfl, rfl⟩
  unfold MemTable.start
  rw [h.findAndOpenSegments_eq hend, exec_ok_bind, if_neg (by simpa using hkept),
    checkedMod_ok s.pos, exec_ok_bind, hrecover]
  simp only [exec_ok_bind]
  dsimp only at htruncate
  rw [htruncate, exec_ok_bind]
  simp only [hlsn, exec_ok_bind]
  rw [hcut.listSegmentFiles_eq hend', exec_ok_bind]
  rfl

end SegmentFiles

end

end Rkvs.Analysis

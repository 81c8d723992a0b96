import Rkvs.Analysis.HalfWritten
import Rkvs.Analysis.SequenceNumbers
import Rkvs.Interface.StaleFiles

/-!
# What was at the path of a segment

The files are opened without being truncated. A flush leaves what is longer than the new segment
behind it, so that the footer is the old one; a segment writer counts its places from the old length.
-/

set_option autoImplicit false

namespace Rkvs.Analysis

open Rkvs.Library Rkvs.Model Rkvs.Interface

/-- INTERNAL: a file is opened with its contents.
SOURCE: level/segment.rs:139-151 -/
theorem fromFile_file {d : Dir} {path : String} {s : Sst.Segment}
    (h : Sst.Segment.fromFile d path = .ok (.ok s)) : s.file = d.content path := by
  unfold Sst.Segment.fromFile at h
  obtain ⟨⟨_, _⟩, -, hopen⟩ := exec_bind_eq_ok.mp h
  dsimp only at hopen
  split at hopen
  · cases hopen
  split at hopen
  · cases hopen
  split at hopen
  · cases hopen
  obtain ⟨_, -, hopen⟩ := exec_bind_eq_ok.mp hopen
  obtain ⟨_, -, hopen⟩ := exec_bind_eq_ok.mp hopen
  obtain ⟨_, -, hopen⟩ := exec_bind_eq_ok.mp hopen
  obtain ⟨_, -, hopen⟩ := exec_bind_eq_ok.mp hopen
  obtain ⟨_, -, hopen⟩ := exec_bind_eq_ok.mp hopen
  cases hopen
  rfl

/-! ## Bytes over bytes -/

theorem overwrite_length (old new : Bytes) :
    (Dir.overwrite old 0 new).length = max old.length new.length := by
  unfold Dir.overwrite
  simp only [List.take_zero, List.nil_append, List.length_append, List.length_drop, Nat.zero_add]
  omega

theorem overwrite_eq_self_iff (old new : Bytes) :
    Dir.overwrite old 0 new = new ↔ old.length ≤ new.length := by
  constructor
  · intro h
    have hlen := overwrite_length old new
    rw [h] at hlen
    omega
  · intro h
    unfold Dir.overwrite
    rw [Nat.zero_add, List.drop_eq_nil_of_le h]
    simp

/-- INTERNAL: how long an index is does not depend on where the entries are. -/
theorem indexedPlaces_bytes_length (factor counter offset offset' : ℕ) (es : List SsTableEntry) :
    ((indexedPlaces factor counter offset es).flatMap Sst.SegmentIndexEntry.toBytes).length =
      ((indexedPlaces factor counter offset' es).flatMap Sst.SegmentIndexEntry.toBytes).length := by
  induction es generalizing counter offset offset' with
  | nil => rfl
  | cons e es ih =>
    rw [indexedPlaces, indexedPlaces, List.flatMap_append, List.flatMap_append, List.length_append,
      List.length_append, ih _ _ (offset' + (frame e).length)]
    split <;> simp

theorem shiftedBytes_length (es : List SsTableEntry) (factor shift : ℕ) :
    (shiftedBytes es factor shift).length = (freshBytes es factor 1).length := by
  unfold shiftedBytes freshBytes segmentBytes
  rw [List.length_append, List.length_append, List.length_append, List.length_append,
    indexedPlaces_bytes_length factor 1 shift 0]
  simp [Sst.footerToBytes]

/-- INTERNAL: the footer gives away that the places were moved. -/
theorem shift_eq_zero {es : List SsTableEntry} {factor shift : ℕ}
    (hlt : shift + (dataBlock es).length < 2 ^ 64)
    (h : shiftedBytes es factor shift = freshBytes es factor 1) : shift = 0 := by
  unfold shiftedBytes freshBytes segmentBytes at h
  obtain ⟨-, hfooter⟩ := List.append_inj' h (by simp [Sst.footerToBytes])
  unfold Sst.footerToBytes at hfooter
  have hnumber := congrArg leValue (List.append_inj_left' hfooter rfl)
  rw [leValue_leBytes (by omega), leValue_leBytes (by omega)] at hnumber
  omega

/-! ## Opening what was written -/

section
variable {es : List SsTableEntry} {factor first : ℕ} {d d' : Dir} {path : String}

/-- INTERNAL: the bytes that a writer writes over the old ones.
SOURCE: level/segment.rs:333-449 -/
theorem writtenTo_content (hasc : Ascending es) (h : WrittenTo es factor d d' path first) :
    (∃ levelNumber n, Sst.Segment.determineSegmentFilename levelNumber n = .ok path) ∧
      path ∈ d'.names ∧ ∃ new, d'.content path = Dir.overwrite (d.content path) 0 new ∧
        new.length = (freshBytes es factor first).length ∧
        (freshBytes es factor first).length < 2 ^ 63 ∧
        (first = 0 ∧ new = freshBytes es factor first ∨
          first = 1 ∧ new = shiftedBytes es factor (d.content path).length) := by
  cases h with
  | memtable table n hholds hname hrun =>
    obtain ⟨hmem, hcontent, hlen⟩ := segmentFileFromMemtable_content hasc hholds hrun
    exact ⟨⟨0, n, hname⟩, hmem, _, hcontent, rfl, hlen, Or.inl ⟨rfl, rfl⟩⟩
  | writer levelNumber n w w' w'' d₁ d₂ hname hcreate hentries hfooter =>
    obtain ⟨hmem, hcontent, hlen⟩ := segmentWriter_content hname hcreate hentries hfooter
    rw [shiftedBytes_length] at hlen
    exact ⟨⟨levelNumber, n, hname⟩, hmem, _, hcontent, shiftedBytes_length .., hlen,
      Or.inr ⟨rfl, rfl⟩⟩

/-- INTERNAL: a file with the bytes of a fresh one opens.
SOURCE: level/segment.rs:99-152 -/
theorem opensAsFresh_iff (hne : es ≠ []) (hasc : Ascending es) (hfits : ∀ e ∈ es, EntryFits e)
    (hname : ∃ levelNumber n, Sst.Segment.determineSegmentFilename levelNumber n = .ok path)
    (hmem : path ∈ d.names) (hlen : (freshBytes es factor first).length < 2 ^ 63) :
    OpensAsFresh es factor first d path ↔ d.content path = freshBytes es factor first := by
  constructor
  · rintro ⟨s, hopen, -, hfile⟩
    exact (fromFile_file hopen).symm.trans hfile
  · intro hcontent
    obtain ⟨levelNumber, n, hname⟩ := hname
    obtain ⟨s, hopen, hstored, hfile, -⟩ := fromFile_ok (numbers_of_filename hname) hmem hcontent
      (hlen.trans (by norm_num)) hne hasc hfits (indexedPlaces_sublist ..)
    exact ⟨s, hopen, Stored.answers hstored, hfile⟩

/-- What was at the path makes no difference if and only if there was nothing, or a flush has written
at least as many bytes as there were.
SOURCE: level/segment.rs:333-449, 99-152 -/
theorem old_file_hidden_iff (hne : es ≠ []) (hasc : Ascending es) (hfits : ∀ e ∈ es, EntryFits e)
    (hwritten : WrittenTo es factor d d' path first) :
    OpensAsFresh es factor first d' path ↔ d.content path = [] ∨
      first = 0 ∧ (d.content path).length ≤ (freshBytes es factor 0).length := by
  obtain ⟨hname, hmem, new, hcontent, hlength, hlen, hkind⟩ := writtenTo_content hasc hwritten
  rw [opensAsFresh_iff hne hasc hfits hname hmem hlen, hcontent]
  obtain ⟨rfl, rfl⟩ | ⟨rfl, rfl⟩ := hkind
  · rw [overwrite_eq_self_iff]
    constructor
    · exact fun h => Or.inr ⟨rfl, h⟩
    · rintro (h | ⟨-, h⟩)
      · rw [h]
        exact Nat.zero_le _
      · exact h
  · constructor
    · intro h
      have hmax := congrArg List.length h
      rw [overwrite_length, hlength] at hmax
      rw [(overwrite_eq_self_iff _ _).mpr (by omega)] at h
      have hdata : (dataBlock es).length ≤ (freshBytes es factor 1).length := by
        unfold freshBytes segmentBytes
        rw [List.append_assoc, List.length_append]
        exact Nat.le_add_right ..
      exact Or.inl (List.length_eq_zero_iff.mp (shift_eq_zero (by omega) h))
    · rintro (h | ⟨h, -⟩)
      · rw [h, overwrite_empty, List.length_nil, shiftedBytes_zero]
        rfl
      · cases h

/-- A rest of an old file that does not end with the magic bytes makes the new segment unreadable.
SOURCE: level/segment.rs:99-119 -/
theorem corrupted_of_rest (hasc : Ascending es) (hwritten : WrittenTo es factor d d' path first)
    (hlonger : (freshBytes es factor first).length < (d.content path).length)
    (hrest : ¬Sst.MAGIC_BYTES <:+ d'.content path) :
    Sst.Segment.fromFile d' path = .ok (.error .corrupted) := by
  obtain ⟨⟨levelNumber, n, hname⟩, hmem, new, hcontent, hlength, -, -⟩ :=
    writtenTo_content hasc hwritten
  refine (fromFile_corrupted_iff (numbers_of_filename hname) hmem).mpr ⟨?_, hrest⟩
  have hfooter : 12 ≤ (freshBytes es factor first).length := by
    unfold freshBytes segmentBytes
    simp only [List.length_append, Sst.footerToBytes, leBytes_length, Sst.MAGIC_BYTES,
      List.length_cons, List.length_nil]
    omega
  rw [hcontent, overwrite_length, show Sst.SEGMENT_FOOTER_LEN = 12 from rfl]
  omega

end

/-! ## Two flushes to one path -/

/-- A flush of one value as segment 1 of level zero. -/
def flushOne (value : String) (sequenceNumber : ℕ) : EStateM Fault Dir String :=
  Sst.SegmentWriter.segmentFileFromMemtable ((∅ : Table).insert "a" ⟨some value, sequenceNumber⟩) 1 1

/-- INTERNAL: what a flush of one value writes. -/
theorem flushOne_written {value path : String} {n : ℕ} {d d' : Dir}
    (hlen : SsTableEntry.len ⟨"a", some value, n⟩ < 2 ^ 32) (hn : n < 2 ^ 64)
    (hrun : (flushOne value n).run d = .ok path d') :
    Ascending [⟨"a", some value, n⟩] ∧
      (∀ e ∈ [(⟨"a", some value, n⟩ : SsTableEntry)], EntryFits e) ∧
      WrittenTo [⟨"a", some value, n⟩] 1 d d' path 0 := by
  refine ⟨List.pairwise_singleton .., ?_, ?_⟩
  · intro e he
    rw [List.mem_singleton.mp he]
    exact ⟨hlen, hn⟩
  · refine .memtable _ 1 ?_ (segmentFileFromMemtable_among hrun).1 hrun
    intro key
    by_cases ha : key = "a"
    · subst ha
      rfl
    · have hnone : entryFor [⟨"a", some value, n⟩] key = none := by
        simp [entryFor, Ne.symm ha]
      rw [Finmap.lookup_insert_of_ne _ ha, hnone]
      rfl

/-- Two flushes to one path, with a check of the directories before and after the second. -/
def flushTwice (first second : String × ℕ) (check : String → Dir → Dir → Bool) :
    EStateM Fault Dir Bool := do
  let _ ← flushOne first.1 first.2
  let before ← get
  let path ← flushOne second.1 second.2
  return check path before (← get)

/-- INTERNAL: where the check is passed there is a second flush. -/
theorem flushTwice_ok {first second : String × ℕ} {check : String → Dir → Dir → Bool}
    (h : (flushTwice first second check).run' Dir.empty = some true) :
    ∃ path d d', (flushOne second.1 second.2).run d = .ok path d' ∧ check path d d' = true := by
  obtain ⟨last, hrun⟩ : ∃ last, (flushTwice first second check).run Dir.empty = .ok true last := by
    unfold EStateM.run' at h
    cases hrun : (flushTwice first second check).run Dir.empty with
    | ok b last =>
      rw [hrun] at h
      cases h
      exact ⟨last, rfl⟩
    | error e last =>
      rw [hrun] at h
      cases h
  unfold flushTwice at hrun
  obtain ⟨_, d, -, h₁⟩ := run_bind_eq_ok hrun
  obtain ⟨_, _, hbefore, h₂⟩ := run_bind_eq_ok h₁
  cases hbefore
  obtain ⟨path, d', hsecond, h₃⟩ := run_bind_eq_ok h₂
  obtain ⟨_, _, hafter, hend⟩ := run_bind_eq_ok h₃
  cases hafter
  have hcheck : check path d d' = true := (EStateM.Result.ok.inj hend).1
  exact ⟨path, d, d', hsecond, hcheck⟩

/-- A flush over a file that is not longer. -/
theorem old_file_hidden_shorter : ∃ d d' path, d.content path ≠ [] ∧
    WrittenTo [⟨"a", some "newer", 30⟩] 1 d d' path 0 ∧
    OpensAsFresh [⟨"a", some "newer", 30⟩] 1 0 d' path := by
  have hchecked : (flushTwice ("v", 1) ("newer", 30) fun path d _ =>
      decide (d.content path ≠ [] ∧ (d.content path).length ≤
        (freshBytes [⟨"a", some "newer", 30⟩] 1 0).length)).run' Dir.empty = some true := by
    decide +kernel
  obtain ⟨path, d, d', hrun, hcheck⟩ := flushTwice_ok hchecked
  obtain ⟨hnonempty, hle⟩ := of_decide_eq_true hcheck
  obtain ⟨hasc, hfits, hwritten⟩ := flushOne_written (by decide) (by norm_num) hrun
  exact ⟨d, d', path, hnonempty, hwritten,
    (old_file_hidden_iff (by simp) hasc hfits hwritten).mpr (Or.inr ⟨rfl, hle⟩)⟩

/-- A flush over a longer segment of the same number. -/
theorem stale_segment_panics : ¬∀ {es : List SsTableEntry} {factor first : ℕ} {d d' : Dir}
    {path : String}, es ≠ [] → Ascending es → (∀ e ∈ es, EntryFits e) →
    WrittenTo es factor d d' path first →
    ∃ s, Sst.Segment.fromFile d' path = .ok (.ok s) ∧ Answers s es := by
  intro h
  have hchecked : (flushTwice
      ("a value that is longer than the new segment, its index and its footer", 1) ("w", 30)
      fun path _ d' => decide (Sst.Segment.fromFile d' path = .error .panic)).run' Dir.empty =
        some true := by
    decide +kernel
  obtain ⟨path, d, d', hrun, hcheck⟩ := flushTwice_ok hchecked
  obtain ⟨hasc, hfits, hwritten⟩ := flushOne_written (by decide) (by norm_num) hrun
  obtain ⟨s, hopen, -⟩ := h (by simp) hasc hfits hwritten
  rw [of_decide_eq_true hcheck] at hopen
  cases hopen

end Rkvs.Analysis

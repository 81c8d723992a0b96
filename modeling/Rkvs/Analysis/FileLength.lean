import Rkvs.Analysis.SegmentContents
import Rkvs.Analysis.SegmentLookup

/-!
# The length that a writer expects

The index counts twelve bytes for an entry besides its key, but writes sixteen: the length of the
key is written to a field of eight bytes, of which the index counts four. So a writer expects its
file to be shorter than it gets, by four bytes for every entry of the index.
-/

set_option autoImplicit false

namespace Rkvs.Analysis

open Rkvs.Library Rkvs.Model Rkvs.Interface

/-! ## The index -/

/-- What an index counts of itself, and what it writes.
SOURCE: level/segment.rs:504-519, 550-561 -/
theorem indexBytes_length (indices : List Sst.SegmentIndexEntry) :
    (indices.flatMap Sst.SegmentIndexEntry.toBytes).length =
      indexLen indices + 4 * indices.length := by
  induction indices with
  | nil => rfl
  | cons x indices ih =>
    have hone : x.toBytes.length = (asBytes x.key).length + 16 := by
      unfold Sst.SegmentIndexEntry.toBytes
      simp
      omega
    have hcount : indexLen (x :: indices) = (asBytes x.key).length + 12 + indexLen indices := rfl
    rw [List.flatMap_cons, List.length_append, List.length_cons, ih, hone, hcount]
    omega

/-- A writer indexes one of `factor` entries.
SOURCE: level/segment.rs:443-446 -/
theorem indexedPlaces_length (factor offset : ℕ) (es : List SsTableEntry) :
    (indexedPlaces factor 1 offset es).length = es.length / factor := by
  induction es using List.reverseRecOn with
  | nil => simp [indexedPlaces]
  | append_singleton es e ih =>
    rw [indexedPlaces_append, List.length_append, ih, List.length_append, List.length_singleton,
      Nat.succ_div, Nat.add_comm 1]
    by_cases hnow : factor ∣ es.length + 1
    · rw [indexedPlaces, if_pos (Nat.mod_eq_zero_of_dvd hnow), if_pos hnow]
      rfl
    · rw [indexedPlaces, if_neg (mt Nat.dvd_of_mod_eq_zero hnow), if_neg hnow]
      rfl

/-! ## The file -/

/-- The expected length is what is compared with the target.
SOURCE: level/segment.rs:412-414 -/
theorem reachedTargetSize_eq_ok {w : Sst.SegmentWriter} {reached : Bool}
    (h : w.reachedTargetSize = .ok reached) :
    reached = decide (w.targetSize ≤ expectedLength w) := by
  unfold Sst.SegmentWriter.reachedTargetSize at h
  obtain ⟨data, hdata, h⟩ := exec_bind_eq_ok.mp h
  obtain ⟨size, hsize, h⟩ := exec_bind_eq_ok.mp h
  obtain ⟨rfl, -⟩ := checkedAdd_eq_ok hdata
  obtain ⟨rfl, -⟩ := checkedAdd_eq_ok hsize
  cases h
  rfl

section
variable {levelNumber n factor : ℕ} {es : List SsTableEntry} {w w' w'' : Sst.SegmentWriter}
  {d d₁ d₂ d' : Dir} (hfresh : w.filepath ∉ d.names)
  (hcreate : (Sst.SegmentWriter.createNewSegment levelNumber n factor).run d = .ok w d₁)
  (hentries : (es.foldlM Sst.SegmentWriter.writeEntry w).run d₁ = .ok w' d₂)
  (hfooter : w'.writeIndexAndFooter.run d₂ = .ok w'' d')
include hfresh hcreate hentries hfooter

/-- The file of a writer is longer than it expects.
SOURCE: level/segment.rs:412-449, 504-519, 550-561 -/
theorem file_length_eq :
    (d'.content w'.filepath).length = expectedLength w' + 4 * (es.length / factor) := by
  obtain ⟨hname, hfactor, hover⟩ := createNewSegment_over hcreate
  have hnew : ∀ path, Sst.Segment.determineSegmentFilename levelNumber n = .ok path →
      path ∉ d.names := fun path hpath => Except.ok.inj (hname.symm.trans hpath) ▸ hfresh
  rw [content_of_not_mem hfresh] at hover
  obtain ⟨hdone, -, hfactor'⟩ := writeEntries_over hover hentries
  have hwriting := ((createNewSegment_runs hnew).ok hcreate).1
  have hwritten := ((writeEntries_runs es hwriting).ok hentries).1
  rw [List.nil_append] at hdone hwritten
  obtain ⟨-, -, -, hcontent, -⟩ := (writeIndexAndFooter_runs hwritten).ok hfooter
  have hplaces : w'.index.indices.length = es.length / factor := by
    rw [hdone.indices, hfactor', hfactor, indexedPlaces_length]
  unfold segmentBytes at hcontent
  rw [hcontent, List.length_append, List.length_append, indexBytes_length, hplaces]
  unfold expectedLength
  rw [hwritten.currSize, hwritten.len]
  have hend : (Sst.footerToBytes (dataBlock es).length).length = Sst.SEGMENT_FOOTER_LEN := by
    simp [Sst.footerToBytes, Sst.SEGMENT_FOOTER_LEN, Sst.MAGIC_BYTES]
  rw [hend]
  omega

/-- A writer knows how long its file will be if and only if it has no entry in the index yet.
SOURCE: level/segment.rs:412-449, 504-519, 550-561 -/
theorem expected_length_iff (hfactor : 1 ≤ factor) :
    (d'.content w'.filepath).length = expectedLength w' ↔ es.length < factor := by
  rw [file_length_eq hfresh hcreate hentries hfooter, Nat.add_eq_left, Nat.mul_eq_zero,
    Nat.div_eq_zero_iff]
  omega

/-- A writer that has not reached its target can be ahead of it already.
SOURCE: level/segment.rs:412-414 -/
theorem file_length_lt (hmore : w'.reachedTargetSize = .ok false) :
    (d'.content w'.filepath).length < w'.targetSize + 4 * (es.length / factor) := by
  have hroom := of_decide_eq_false (reachedTargetSize_eq_ok hmore).symm
  rw [file_length_eq hfresh hcreate hentries hfooter]
  omega

end

/-! ## Two entries -/

/-- The length that a writer expects of its file, and the length of the file. -/
def lengthsOf (factor : ℕ) (es : List SsTableEntry) : Option (ℕ × ℕ) :=
  match (do
      let w ← Sst.SegmentWriter.createNewSegment 0 1 factor
      let w ← es.foldlM Sst.SegmentWriter.writeEntry w
      let _ ← w.writeIndexAndFooter
      return (expectedLength w, ((← get).content w.filepath).length) :
    EStateM Fault Dir (ℕ × ℕ)).run Dir.empty with
  | .ok lengths _ => some lengths
  | .error _ _ => none

/-- INTERNAL: the parts of the run. -/
theorem lengthsOf_eq_some {factor expected actual : ℕ} {es : List SsTableEntry}
    (h : lengthsOf factor es = some (expected, actual)) : ∃ w w' w'' d₁ d₂ d',
      (Sst.SegmentWriter.createNewSegment 0 1 factor).run Dir.empty = .ok w d₁ ∧
      (es.foldlM Sst.SegmentWriter.writeEntry w).run d₁ = .ok w' d₂ ∧
      w'.writeIndexAndFooter.run d₂ = .ok w'' d' ∧
      expectedLength w' = expected ∧ (d'.content w'.filepath).length = actual := by
  unfold lengthsOf at h
  split at h
  next lengths d' hrun =>
    cases h
    obtain ⟨w, d₁, hcreate, hrun⟩ := run_bind_eq_ok hrun
    obtain ⟨w', d₂, hentries, hrun⟩ := run_bind_eq_ok hrun
    obtain ⟨w'', d₃, hfooter, hrun⟩ := run_bind_eq_ok hrun
    obtain ⟨_, _, hget, hrun⟩ := run_bind_eq_ok hrun
    cases hget
    cases hrun
    exact ⟨w, w', w'', d₁, d₂, _, hcreate, hentries, hfooter, rfl, rfl⟩
  next => cases h

def twoEntries : List SsTableEntry := [⟨"k", some "v", 0⟩, ⟨"l", none, 1⟩]

/-- Neither of two entries is in the index. -/
theorem expected_length_two : ∃ w w' w'' d₁ d₂ d',
    (Sst.SegmentWriter.createNewSegment 0 1 3).run Dir.empty = .ok w d₁ ∧
    (twoEntries.foldlM Sst.SegmentWriter.writeEntry w).run d₁ = .ok w' d₂ ∧
    w'.writeIndexAndFooter.run d₂ = .ok w'' d' ∧
    (d'.content w'.filepath).length = expectedLength w' := by
  have hlengths : lengthsOf 3 twoEntries = some (57, 57) := by decide
  obtain ⟨w, w', w'', d₁, d₂, d', hcreate, hentries, hfooter, -⟩ := lengthsOf_eq_some hlengths
  refine ⟨w, w', w'', d₁, d₂, d', hcreate, hentries, hfooter, ?_⟩
  apply (expected_length_iff List.not_mem_nil hcreate hentries hfooter (by decide)).mpr
  decide

/-- The second of them is. -/
theorem longer_than_expected : ∃ w w' w'' d₁ d₂ d',
    (Sst.SegmentWriter.createNewSegment 0 1 2).run Dir.empty = .ok w d₁ ∧
    w.filepath ∉ Dir.empty.names ∧
    (twoEntries.foldlM Sst.SegmentWriter.writeEntry w).run d₁ = .ok w' d₂ ∧
    w'.writeIndexAndFooter.run d₂ = .ok w'' d' ∧
    (d'.content w'.filepath).length = 74 ∧ expectedLength w' = 70 := by
  have hlengths : lengthsOf 2 twoEntries = some (70, 74) := by decide +kernel
  obtain ⟨w, w', w'', d₁, d₂, d', hcreate, hentries, hfooter, hexpected, hactual⟩ :=
    lengthsOf_eq_some hlengths
  exact ⟨w, w', w'', d₁, d₂, d', hcreate, List.not_mem_nil, hentries, hfooter, hactual, hexpected⟩

end Rkvs.Analysis

import Rkvs.Analysis.RecoveryMerges
import Rkvs.Interface.Crash

/-!
# The files after a crash

What a restart opens after a crash are the segments that were written and those of the container
that remain.
-/

set_option autoImplicit false

namespace Rkvs.Analysis

open Rkvs.Library Rkvs.Model Rkvs.Interface

theorem mem_remaining {dir : Dir} {segments : List Sst.Segment} {s : Sst.Segment} :
    s ∈ remaining dir segments ↔ s ∈ segments ∧ s.filepath ∈ dir.names := by
  unfold remaining
  rw [List.mem_filter, decide_eq_true_eq]

section
variable {c : Sst.LevelContainer} {level : Sst.PartitionedLevel}
  {mergeAndWrite : Sst.PartitionedLevel → List Sst.Segment → EStateM Fault Dir (List Sst.Segment)}
  {chosen new deleted : List Sst.Segment} {dir dir₁ dir₂ : Dir} (hnumbers : NumberedLevels c)
  (hfiles : FilesOf c dir) (hlevel : level ∈ c.partitionedLevels)
  (hchosen : ∀ s ∈ chosen, s ∈ c.levelZero.segments)
  (hmerged : MergedInto mergeAndWrite level chosen new deleted dir dir₁)
  (hgone : SomeGone deleted dir₁ dir₂)

include hmerged in
/-- INTERNAL: what is deleted is what was read.
SOURCE: level.rs:441-477 -/
theorem deleted_eq : deleted = touchedBy level chosen ++ chosen := by
  obtain ⟨level', hrun⟩ := hmerged.merges
  obtain ⟨-, -, -, heq⟩ := merge_run_eq_ok hrun
  exact heq

include hmerged hlevel hchosen in
theorem deleted_sub : ∀ s ∈ deleted, s ∈ allSegments c := by
  intro s hs
  rw [deleted_eq hmerged] at hs
  obtain hs | hs := List.mem_append.mp hs
  · exact List.mem_append_right _ (List.mem_flatMap.mpr ⟨level, hlevel, (mem_touchedBy.mp hs).1⟩)
  · exact List.mem_append_left _ (hchosen s hs)

include hfiles in
/-- INTERNAL: two segments of the container in one file are one. -/
theorem eq_of_filepath {s t : Sst.Segment} (hs : s ∈ allSegments c) (ht : t ∈ allSegments c)
    (h : s.filepath = t.filepath) : s = t :=
  eq_of_same_file (hfiles.opened s hs) (hfiles.opened t ht) h

include hnumbers hfiles hlevel hmerged in
/-- INTERNAL: what is written goes to files of its own. -/
theorem filepath_ne {s t : Sst.Segment} (hs : s ∈ new) (ht : t ∈ allSegments c) :
    s.filepath ≠ t.filepath := by
  intro hsame
  have hnew := (fromFile_eq_ok (hmerged.written.opened s hs)).2.2.2.2
  have hold := (fromFile_eq_ok (hfiles.opened t ht)).2.2.2.2
  rw [hsame, hold] at hnew
  obtain ⟨hnumber, hsegment⟩ := Prod.mk.inj (Except.ok.inj hnew)
  rw [hmerged.written.levelNumber s hs] at hnumber
  have hle := le_highestNumber (mem_of_levelNumber hnumbers hlevel ht hnumber)
  have hlt : Sst.highestNumber level.segments < s.number := hmerged.written.number s hs
  omega

include hnumbers hfiles hlevel hchosen hmerged hgone

omit hnumbers in
/-- INTERNAL: a segment that is not among what was merged is still there. -/
theorem mem_deleted_of_gone {s : Sst.Segment} (hs : s ∈ allSegments c)
    (hnot : s.filepath ∉ dir₂.names) : s ∈ deleted := by
  have hmem := (fromFile_eq_ok (hfiles.opened s hs)).1
  obtain ⟨t, ht, hpath⟩ := hgone.gone s.filepath
    ((hmerged.written.names s.filepath).mpr (Or.inl hmem)) hnot
  have hsame := eq_of_filepath hfiles (deleted_sub hlevel hchosen hmerged t ht) hs hpath
  exact hsame ▸ ht

/-- INTERNAL: segments of other levels are still there. -/
theorem mem_names_of_other {s : Sst.Segment} (hs : s ∈ allSegments c)
    (hother : s.levelNumber ≠ 0 ∧ s.levelNumber ≠ level.levelNumber) :
    s.filepath ∈ dir₂.names := by
  by_contra hnot
  have hdel := mem_deleted_of_gone hfiles hlevel hchosen hmerged hgone hs hnot
  rw [deleted_eq hmerged] at hdel
  obtain hmem | hmem := List.mem_append.mp hdel
  · exact hother.2 (hnumbers.levels level hlevel s (mem_touchedBy.mp hmem).1)
  · exact hother.1 (hnumbers.levelZero s (hchosen s hmem))

/-- INTERNAL: what was written is opened. -/
theorem new_opened {s : Sst.Segment} (hs : s ∈ new) :
    s.filepath ∈ dir₂.names ∧ Sst.Segment.fromFile dir₂ s.filepath = .ok (.ok s) := by
  have hopen := hmerged.written.opened s hs
  have hmem := (fromFile_eq_ok hopen).1
  have hkept : s.filepath ∈ dir₂.names := by
    by_contra hnot
    obtain ⟨t, ht, hpath⟩ := hgone.gone s.filepath hmem hnot
    exact filepath_ne hnumbers hfiles hlevel hmerged hs
      (deleted_sub hlevel hchosen hmerged t ht) hpath.symm
  exact ⟨hkept, (fromFile_congr (iff_of_true hkept hmem)
    (hgone.content s.filepath hkept)).trans hopen⟩

omit hnumbers hfiles hlevel hchosen in
/-- INTERNAL: a file that was not written is as it was. -/
theorem content_old {name : String} (hname : name ∈ dir₂.names)
    (hold : ∀ s ∈ new, s.filepath ≠ name) :
    name ∈ dir.names ∧ dir₂.content name = dir.content name := by
  have hmem : name ∈ dir.names :=
    ((hmerged.written.names name).mp (hgone.kept name hname)).resolve_right
      fun ⟨s, hs, hpath⟩ => hold s hs hpath
  exact ⟨hmem, (hgone.content name hname).trans (hmerged.written.content name hold)⟩

omit hchosen in
/-- INTERNAL: what remains of the container is opened. -/
theorem remaining_opened {s : Sst.Segment} (hs : s ∈ allSegments c)
    (hname : s.filepath ∈ dir₂.names) :
    Sst.Segment.fromFile dir₂ s.filepath = .ok (.ok s) := by
  obtain ⟨hmem, hcontent⟩ := content_old hmerged hgone hname
    fun t ht => filepath_ne hnumbers hfiles hlevel hmerged ht hs
  exact (fromFile_congr (iff_of_true hname hmem) hcontent).trans (hfiles.opened s hs)

omit hnumbers hlevel hchosen in
/-- INTERNAL: a file after the crash. -/
theorem file_cases {name : String} (hname : name ∈ dir₂.names) :
    (∃ s ∈ new, s.filepath = name) ∨ (∃ s ∈ allSegments c, s.filepath = name) ∨
      Incomplete dir₂ name := by
  by_cases hnew : ∃ s ∈ new, s.filepath = name
  · exact Or.inl hnew
  · have hold : ∀ s ∈ new, s.filepath ≠ name := fun s hs hpath => hnew ⟨s, hs, hpath⟩
    obtain ⟨hmem, hcontent⟩ :=
      content_old hmerged hgone hname hold
    refine Or.inr ((hfiles.others name hmem).imp_right fun hincomplete => ?_)
    exact ⟨hincomplete.named, hcontent.symm ▸ hincomplete.long,
      hcontent.symm ▸ hincomplete.unfinished⟩

/-- What is opened after the crash.
SOURCE: level.rs:88-110 -/
theorem crash_opened :
    ∃ opened d, (Sst.LevelContainer.openSegments dir₂.names).run dir₂ = .ok opened d ∧
      opened.Nodup ∧ ∀ s, s ∈ opened ↔ s ∈ new ∨ s ∈ remaining dir₂ (allSegments c) := by
  have hcomplete : ∀ name ∈ dir₂.names,
      (∃ s, Sst.Segment.fromFile dir₂ name = .ok (.ok s)) ∨ Incomplete dir₂ name := by
    intro name hname
    obtain ⟨s, hs, rfl⟩ | ⟨s, hs, rfl⟩ | hincomplete :=
      file_cases hfiles hmerged hgone hname
    · exact Or.inl ⟨s, (new_opened hnumbers hfiles hlevel hchosen hmerged hgone hs).2⟩
    · exact Or.inl ⟨s, remaining_opened hnumbers hfiles hlevel hmerged hgone hs hname⟩
    · exact Or.inr hincomplete
  obtain ⟨opened, d, hopen, hsub, hmem, -, -⟩ := openSegments_ok dir₂.distinct hcomplete
    fun name hname => ⟨hname, hname, rfl⟩
  refine ⟨opened, d, hopen, (dir₂.distinct.sublist hsub).of_map _, fun s => (hmem s).trans ?_⟩
  rw [mem_remaining]
  constructor
  · rintro ⟨name, hname, hfrom⟩
    obtain ⟨t, ht, rfl⟩ | ⟨t, ht, rfl⟩ | hincomplete :=
      file_cases hfiles hmerged hgone hname
    · cases (new_opened hnumbers hfiles hlevel hchosen hmerged hgone ht).2.symm.trans hfrom
      exact Or.inl ht
    · cases (remaining_opened hnumbers hfiles hlevel hmerged hgone ht hname).symm.trans
        hfrom
      exact Or.inr ⟨ht, hname⟩
    · cases (fromFile_incomplete hname hincomplete).symm.trans hfrom
  · rintro (hs | ⟨hs, hname⟩)
    · exact ⟨s.filepath, new_opened hnumbers hfiles hlevel hchosen hmerged hgone hs⟩
    · exact ⟨s.filepath, hname,
        remaining_opened hnumbers hfiles hlevel hmerged hgone hs hname⟩

end

end Rkvs.Analysis

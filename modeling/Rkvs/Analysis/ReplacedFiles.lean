import Rkvs.Analysis.LiveFiles
import Rkvs.Analysis.RestartFiles
import Rkvs.Analysis.SegmentContents
import Rkvs.Interface.RecoveryOrder

/-!
# Files that a restart replaces

A restart opens the complete files of a directory. Each of its merges puts the files that it writes
in the place of those that it has read.
-/

set_option autoImplicit false

namespace Rkvs.Analysis

open Rkvs.Library Rkvs.Model Rkvs.Interface

/-! ## The files of a directory -/

theorem mem_segmentsIn {dir : Dir} {s : Sst.Segment} :
    s ∈ segmentsIn dir ↔ Sst.Segment.fromFile dir s.filepath = .ok (.ok s) := by
  constructor
  · intro h
    obtain ⟨name, -, hsome⟩ := List.mem_filterMap.mp h
    split at hsome
    next t hopen =>
      cases hsome
      rw [(fromFile_eq_ok hopen).2.1]
      exact hopen
    next => cases hsome
  · intro h
    apply List.mem_filterMap.mpr
    refine ⟨s.filepath, (fromFile_eq_ok h).1, ?_⟩
    rw [h]

/-- INTERNAL: a file that was not removed opens as before. -/
theorem fromFile_of_removed {P : String → Prop} {d d' : Dir} (h : RemovedSome P d d')
    {name : String} (hP : ¬P name) :
    Sst.Segment.fromFile d' name = Sst.Segment.fromFile d name := by
  by_cases hmem : name ∈ d.names
  · have hmem' : name ∈ d'.names := by
      by_contra hgone
      exact hP (h.removed _ hmem hgone)
    exact fromFile_congr (iff_of_true hmem' hmem) (h.content _ hmem')
  · have hmem' : name ∉ d'.names := mt (h.kept name) hmem
    apply fromFile_congr (iff_of_false hmem' hmem)
    rw [content_of_not_mem hmem, content_of_not_mem hmem']

/-- INTERNAL: so what is left of the segments is what was not removed. -/
theorem segmentsIn_of_removed {P : String → Prop} {d d' : Dir} (h : RemovedSome P d d')
    {s : Sst.Segment} (hP : ¬P s.filepath) : s ∈ segmentsIn d' ↔ s ∈ segmentsIn d := by
  rw [mem_segmentsIn, mem_segmentsIn, fromFile_of_removed h hP]

/-- INTERNAL: a restart opens the complete files, whatever it removes.
SOURCE: level.rs:96-110 -/
theorem openSegments_eq_ok {names : List String} {opened : List Sst.Segment} {d d' : Dir}
    (hnodup : names.Nodup)
    (h : (Sst.LevelContainer.openSegments names).run d = .ok opened d') :
    (opened = names.filterMap fun name =>
      match Sst.Segment.fromFile d name with
      | .ok (.ok s) => some s
      | _ => none) ∧ ∀ s, s ∈ segmentsIn d' ↔ s ∈ segmentsIn d := by
  induction names generalizing opened d with
  | nil =>
    cases h
    exact ⟨rfl, fun s => Iff.rfl⟩
  | cons name names ih =>
    obtain ⟨hnew, hrest⟩ := List.nodup_cons.mp hnodup
    rw [Sst.LevelContainer.openSegments, run_bind_ok (EStateM.run_get d)] at h
    obtain ⟨res, d₁, hlift, h⟩ := run_bind_eq_ok h
    obtain ⟨hopen, hsame⟩ := run_liftExec_eq_ok hlift
    rw [hsame] at h
    rw [List.filterMap_cons, hopen]
    cases res with
    | ok s =>
      obtain ⟨segments, _, htail, h⟩ := run_bind_eq_ok h
      cases h
      obtain ⟨hall, hsegments⟩ := ih hrest htail
      refine ⟨?_, hsegments⟩
      rw [hall]
    | error e =>
      cases e with
      | ioError kind => cases h
      | corrupted =>
        obtain ⟨⟨⟩, mid, hremove, htail⟩ := run_bind_eq_ok h
        have hremoved := tryRemove_removed hremove
        obtain ⟨hall, hsegments⟩ := ih hrest htail
        constructor
        · rw [hall]
          apply List.filterMap_congr
          intro other hother
          have hne : other ≠ name := fun heq => hnew (heq ▸ hother)
          rw [fromFile_of_removed hremoved hne]
        · intro s
          rw [hsegments s]
          by_cases hname : s.filepath = name
          · -- a file that is removed held no complete segment
            apply iff_of_false
            · intro hs
              have hmid := mem_segmentsIn.mp hs
              have hmem := (fromFile_eq_ok hmid).1
              rw [hname] at hmid hmem
              rw [fromFile_congr (iff_of_true hmem (hremoved.kept _ hmem))
                (hremoved.content _ hmem), hopen] at hmid
              cases hmid
            · intro hs
              have hbefore := mem_segmentsIn.mp hs
              rw [hname, hopen] at hbefore
              cases hbefore
          · exact segmentsIn_of_removed hremoved hname

/-! ## A merge -/

/-- INTERNAL: a removal that succeeds has removed the file and nothing else. -/
theorem remove_removed {name : String} {d d' : Dir} (h : (Dir.remove name).run d = .ok () d') :
    RemovedSome (· = name) d d' ∧ name ∉ d'.names :=
  ⟨tryRemove_removed (Dir.tryRemove_of_ok h), fun hmem => ((remove_eq_ok h name).mp hmem).2 rfl⟩

/-- INTERNAL: so have several. -/
theorem forM_remove_removed {segments : List Sst.Segment} {d d' : Dir}
    (h : (segments.forM fun s => Dir.remove s.filepath).run d = .ok () d') :
    RemovedSome (fun name => ∃ s ∈ segments, s.filepath = name) d d' := by
  induction segments generalizing d with
  | nil =>
    cases h
    exact RemovedSome.refl _ _
  | cons s segments ih =>
    obtain ⟨⟨⟩, mid, hremove, hrest⟩ := run_bind_eq_ok h
    apply ((remove_removed hremove).1.mono _).trans ((ih hrest).mono _)
    · rintro _ rfl
      exact ⟨s, List.mem_cons_self .., rfl⟩
    · rintro _ ⟨t, ht, rfl⟩
      exact ⟨t, List.mem_cons_of_mem _ ht, rfl⟩

section
variable {levelZeroTargetSize levelSizeFactor sparsity fuel : ℕ} {writes : Sst.PartitionedLevel →
  List Sst.Segment → EStateM Fault Dir (List Sst.Segment)} (hwrites : MergesIntoFiles writes)

/-- INTERNAL: what a merge makes of a level and of the files. -/
structure Replaced (level : Sst.PartitionedLevel) (chosen : List Sst.Segment) (d : Dir)
    (newLevel : Sst.PartitionedLevel) (out : List Sst.Segment) (d' : Dir) : Prop where
  merged : MergedFiles (touchedBy level chosen ++ chosen) out
  placed : ∀ s ∈ out, s.levelNumber = level.levelNumber
  segments : newLevel.segments.Perm (out ++ untouchedBy level chosen)
  number : newLevel.levelNumber = level.levelNumber
  files : ∀ s, s ∈ segmentsIn d' ↔
    s ∈ out ∨ s ∈ segmentsIn d ∧ s ∉ touchedBy level chosen ++ chosen

theorem Replaced.whole {level newLevel : Sst.PartitionedLevel} {chosen out : List Sst.Segment}
    {d d' : Dir} (h : Replaced level chosen d newLevel out d')
    (hwhole : ∀ s ∈ segmentsIn d, Whole s) : ∀ s ∈ segmentsIn d', Whole s := by
  intro s hs
  obtain hs | ⟨hs, -⟩ := (h.files s).mp hs
  · exact h.merged.whole s hs
  · exact hwhole s hs

include hwrites

/-- INTERNAL: a merge replaces the files of the segments that it merges by those that it writes.
SOURCE: level.rs:193-196, 211-214, 441-477 -/
theorem mergeAndRemove_replaces {level newLevel : Sst.PartitionedLevel}
    {chosen : List Sst.Segment} {d d' : Dir} (hwhole : ∀ s ∈ segmentsIn d, Whole s)
    (hlevel : ∀ s ∈ level.segments, s ∈ segmentsIn d) (hchosen : ∀ s ∈ chosen, s ∈ segmentsIn d)
    (h : (Sst.LevelContainer.mergeAndRemove (Sst.PartitionedLevel.merge writes) level
      chosen).run d = .ok newLevel d') :
    ∃ out, Replaced level chosen d newLevel out d' := by
  obtain ⟨deleted, mid, hmerge, hremove⟩ := mergeAndRemove_eq_ok h
  obtain ⟨out, mid', hout, hreturn⟩ := run_bind_eq_ok hmerge
  cases hreturn
  have hreads : ∀ s ∈ touchedBy level chosen ++ chosen, s ∈ segmentsIn d := by
    intro s hs
    obtain hs | hs := List.mem_append.mp hs
    · exact hlevel s (mem_touchedBy.mp hs).1
    · exact hchosen s hs
  have hins : ∀ s ∈ touchedBy level chosen ++ chosen, Whole s := fun s hs => hwhole s (hreads s hs)
  have hnew := hwrites.2 _ _ _ _ _ hins hout
  refine ⟨out, hwrites.1 _ _ _ _ _ hins hout, hnew.level, List.mergeSort_perm .., rfl, ?_⟩
  have hremoved := forM_remove_removed hremove
  have hgone := (removed_not_mem_names hremove).2
  have hmid : ∀ s, s ∈ segmentsIn mid ↔ s ∈ out ∨ s ∈ segmentsIn d := by
    intro s
    by_cases hname : ∃ t ∈ out, t.filepath = s.filepath
    · obtain ⟨t, ht, hpath⟩ := hname
      constructor
      · intro hs
        left
        rwa [eq_of_same_file (mem_segmentsIn.mp hs) (hnew.opened t ht) hpath.symm]
      · rintro (hs | hs)
        · exact mem_segmentsIn.mpr (hnew.opened s hs)
        · exact absurd hpath (hnew.fresh t ht s hs)
    · push Not at hname
      obtain ⟨hmem, hcontent⟩ := hnew.others _ hname
      have hopen := fromFile_congr hmem hcontent
      rw [mem_segmentsIn, hopen, ← mem_segmentsIn]
      refine ⟨Or.inr, fun hs => hs.resolve_left fun hsout => hname s hsout rfl⟩
  intro s
  by_cases hname : ∃ t ∈ touchedBy level chosen ++ chosen, t.filepath = s.filepath
  · obtain ⟨t, ht, hpath⟩ := hname
    apply iff_of_false
    · intro hs
      exact hgone t ht (hpath ▸ (fromFile_eq_ok (mem_segmentsIn.mp hs)).1)
    · rintro (hs | ⟨hs, hnot⟩)
      · exact hnew.fresh s hs t (hreads t ht) hpath.symm
      · rw [eq_of_same_file (mem_segmentsIn.mp hs) (mem_segmentsIn.mp (hreads t ht))
          hpath.symm] at hnot
        exact hnot ht
  · rw [segmentsIn_of_removed hremoved hname, hmid s]
    refine or_congr_right ?_
    exact ⟨fun hs => ⟨hs, fun hmem => hname ⟨s, hmem, rfl⟩⟩, fun hs => hs.1⟩

end

end Rkvs.Analysis

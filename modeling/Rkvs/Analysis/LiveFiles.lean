import Rkvs.Analysis.Cascade
import Rkvs.Analysis.Flush
import Rkvs.Interface.LiveFiles

/-!
# Which files can be written or removed

The numbers of a partitioned level only grow, so its merged segments never get their names again.
Level zero starts over when a compaction has emptied it: its next segment has the name of one that
may still be read.
-/

set_option autoImplicit false

namespace Rkvs.Analysis

open Rkvs.Library Rkvs.Model Rkvs.Interface Rkvs.Interface.SharedFiles

/-- The segments of the container and those to delete. -/
def keptSegments (bt : Sst.CompactionBt) : List Sst.Segment :=
  allSegments bt.container ++ bt.segmentsToDelete

/-- What holds in every state. -/
structure FilesSound (st : SharedFiles) : Prop where
  numbered : NumberedLevels st.bt.container
  named : ∀ s ∈ keptSegments st.bt,
    Sst.Segment.determineSegmentFilename s.levelNumber s.number = .ok s.filepath
  opened : ∀ s ∈ keptSegments st.bt, Sst.Segment.fromFile st.bt.dir s.filepath = .ok (.ok s)
  separate : ∀ s ∈ st.bt.segmentsToDelete, ∀ t ∈ allSegments st.bt.container,
    s.filepath ≠ t.filepath
  bounded : ∀ s ∈ st.bt.segmentsToDelete, 0 < s.levelNumber →
    ∃ level ∈ st.bt.container.partitionedLevels, level.levelNumber = s.levelNumber ∧
      s.number ≤ level.highestSegmentNumber
  held : ∀ reader c, st.readers reader = some c → ∀ s ∈ allSegments c, s ∈ keptSegments st.bt

/-! ## Names and files -/

section
variable {d d' : Dir} {s t : Sst.Segment}

/-- INTERNAL: a segment is on level zero or on another level. -/
theorem mem_allSegments {c : Sst.LevelContainer} {s : Sst.Segment} :
    s ∈ allSegments c ↔ s ∈ c.levelZero.segments ∨
      ∃ level ∈ c.partitionedLevels, s ∈ level.segments := by
  unfold allSegments
  rw [List.mem_append, List.mem_flatMap]

/-- INTERNAL: a file that is not among those written is as it was. -/
theorem WroteAmong.opened {P : String → Prop} (h : WroteAmong P d d') (hP : ¬P s.filepath)
    (hs : Sst.Segment.fromFile d s.filepath = .ok (.ok s)) :
    Sst.Segment.fromFile d' s.filepath = .ok (.ok s) := by
  have hmem := (fromFile_eq_ok hs).1
  rw [← hs]
  exact fromFile_congr (iff_of_true (h.kept _ hmem) hmem) (h.content _ hP)

/-- INTERNAL: nor is one that is not among those removed. -/
theorem RemovedSome.opened {P : String → Prop} (h : RemovedSome P d d') (hP : ¬P s.filepath)
    (hs : Sst.Segment.fromFile d s.filepath = .ok (.ok s)) :
    Sst.Segment.fromFile d' s.filepath = .ok (.ok s) := by
  have hmem := (fromFile_eq_ok hs).1
  have hmem' : s.filepath ∈ d'.names := by
    by_contra hgone
    exact hP (h.removed _ hmem hgone)
  rw [← hs]
  exact fromFile_congr (iff_of_true hmem' hmem) (h.content _ hmem')

/-- INTERNAL: the removal of a file, whether it is there or not. -/
theorem tryRemove_removed {name : String} (h : (Dir.tryRemove name).run d = .ok () d') :
    RemovedSome (· = name) d d' := by
  by_cases hmem : name ∈ d.names
  · obtain ⟨d₁, hrun, hremoved, -⟩ := tryRemove_run hmem
    rw [h] at hrun
    cases hrun
    exact hremoved
  · obtain ⟨ev, d₁, hnext, hclear⟩ := Dir.nextEvent_run d
    have hfiles := Dir.nextEvent_files hnext
    have hnames : d₁.names = d.names := congrArg (List.map Prod.fst) hfiles
    have hrun : ∃ e, (Dir.remove name).run d = .error e d₁ := by
      unfold Dir.remove
      rw [run_bind_ok hnext]
      cases ev with
      | ok =>
        dsimp only
        rw [run_bind_ok (EStateM.run_get _), if_pos (hnames.symm ▸ hmem)]
        exact ⟨_, rfl⟩
      | fail written => exact ⟨_, rfl⟩
    obtain ⟨e, hrun⟩ := hrun
    rw [Dir.tryRemove_of_error hrun] at h
    cases h
    refine ⟨fun other hother => hnames ▸ hother, fun other hother hnot => ?_, fun other _ => ?_,
      fun hd => (hclear hd).2⟩
    · exact absurd (hnames.symm ▸ hother) hnot
    · unfold Dir.content
      rw [hfiles]

/-- INTERNAL: removing files one after the other removes no other ones. -/
theorem forM_tryRemove_removed {files : List String}
    (h : (files.forM Dir.tryRemove).run d = .ok () d') : RemovedSome (· ∈ files) d d' := by
  induction files generalizing d with
  | nil =>
    cases h
    exact RemovedSome.refl _ _
  | cons file files ih =>
    obtain ⟨⟨⟩, d₁, hfirst, hrest⟩ := run_bind_eq_ok h
    have hremoved := (tryRemove_removed hfirst).mono (Q := (· ∈ file :: files))
      fun name hname => hname ▸ List.mem_cons_self ..
    exact hremoved.trans ((ih hrest).mono fun name hname => List.mem_cons_of_mem _ hname)

/-- INTERNAL: a flush that returns has added a segment.
SOURCE: level.rs:248-267 -/
theorem addToLevelZero_eq_ok {c c' : Sst.LevelContainer} {path : String}
    (h : c.addToLevelZero d path = .ok c') : ∃ s, Sst.Segment.fromFile d path = .ok (.ok s) ∧
      c' = { c with levelZero := { c.levelZero with segments := c.levelZero.segments ++ [s] } } := by
  unfold Sst.LevelContainer.addToLevelZero at h
  obtain ⟨res, hopen, h₁⟩ := exec_bind_eq_ok.mp h
  cases res with
  | ok s =>
    cases h₁
    exact ⟨s, hopen, rfl⟩
  | error e =>
    cases e with
    | corrupted => cases h₁
    | ioError kind => cases h₁

end

/-! ## The steps -/

section
variable {st st' : SharedFiles}

/-- INTERNAL: the files are sound at the start. -/
theorem filesSound_start (h : Started st) : FilesSound st where
  numbered := h.numbered
  named s hs := by
    unfold keptSegments at hs
    rw [h.queue, List.append_nil] at hs
    exact h.named s hs
  opened s hs := by
    unfold keptSegments at hs
    rw [h.queue, List.append_nil] at hs
    exact h.opened s hs
  separate s hs := by
    rw [h.queue] at hs
    exact absurd hs List.not_mem_nil
  bounded s hs := by
    rw [h.queue] at hs
    exact absurd hs List.not_mem_nil
  held reader c hreader := by
    rw [h.readers reader] at hreader
    cases hreader

/-- INTERNAL: what is sound is safe. -/
theorem safe_of_sound (h : FilesSound st) : Safe st where
  separate := h.separate
  intact s hs := by
    obtain hs | ⟨reader, c, hreader, hs⟩ := hs
    · exact h.opened s (List.mem_append_left _ hs)
    · exact h.opened s (h.held reader c hreader s hs)

/-- INTERNAL: what a flush has done.
SOURCE: memtable_flusher.rs:27-37 -/
theorem flush_step {table : Table} {factor : ℕ}
    (hstep : Step st (.flush table factor) st') : ∃ path s,
      Sst.Segment.determineSegmentFilename 0
        (st.bt.container.levelZero.highestSegmentNumber + 1) = .ok path ∧
      WroteAmong (· = path) st.bt.dir st'.bt.dir ∧
      Sst.Segment.fromFile st'.bt.dir path = .ok (.ok s) ∧ s.filepath = path ∧
      s.levelNumber = 0 ∧ s.number = st.bt.container.levelZero.highestSegmentNumber + 1 ∧
      st'.bt.segmentsToDelete = st.bt.segmentsToDelete ∧ st'.readers = st.readers ∧
      st'.bt.container.partitionedLevels = st.bt.container.partitionedLevels ∧
      st'.bt.container.levelZero.segments = st.bt.container.levelZero.segments ++ [s] := by
  cases hstep with
  | flush flushed =>
    obtain ⟨path, hwrite, hadd, -⟩ := flush_eq_ok flushed
    obtain ⟨hname, hwrote⟩ := segmentFileFromMemtable_among hwrite
    obtain ⟨s, hopen, hcontainer⟩ := addToLevelZero_eq_ok hadd
    obtain ⟨-, hpath, -, -, hnumbers⟩ := fromFile_eq_ok hopen
    rw [numbers_of_filename hname] at hnumbers
    obtain ⟨hlevel, hnumber⟩ := Prod.mk.inj (Except.ok.inj hnumbers)
    refine ⟨path, s, hname, hwrote, hopen, hpath, hlevel.symm, hnumber.symm, rfl, rfl, ?_, ?_⟩
    · dsimp only
      rw [hcontainer]
    · dsimp only
      rw [hcontainer]

/-- INTERNAL: a flush to a name that nothing to delete has. -/
theorem flush_sound {table : Table} {factor : ℕ} (h : FilesSound st)
    (hcareful : Careful (st, .flush table factor)) (hstep : Step st (.flush table factor) st') :
    FilesSound st' := by
  obtain ⟨path, s, hname, hwrote, hopen, hpath, hlevel, hnumber, hqueue, hreaders, hpartitioned,
    hzero⟩ := flush_step hstep
  have hsegments : ∀ t, t ∈ allSegments st'.bt.container ↔
      t = s ∨ t ∈ allSegments st.bt.container := by
    intro t
    rw [mem_allSegments, mem_allSegments, hzero, hpartitioned, List.mem_append,
      List.mem_singleton]
    tauto
  have hkept : ∀ t, t ∈ keptSegments st'.bt ↔ t = s ∨ t ∈ keptSegments st.bt := by
    intro t
    unfold keptSegments
    rw [List.mem_append, List.mem_append, hsegments, hqueue, or_assoc]
  -- the name is that of no segment that is kept
  have hfresh : ∀ t ∈ keptSegments st.bt, t.filepath ≠ path := by
    intro t ht hsame
    obtain ⟨hzero', hlast⟩ := numbers_inj (h.named t ht) (hsame ▸ hname)
    obtain ht | ht := List.mem_append.mp ht
    · obtain ht | ⟨level, hmem, ht⟩ := mem_allSegments.mp ht
      · have hle := le_highestNumber ht
        unfold Sst.OverlappingLevel.highestSegmentNumber at hlast
        omega
      · have hpos := h.numbered.positive level hmem
        have hnumbered := h.numbered.levels level hmem t ht
        omega
    · exact hcareful t ht hzero' hlast
  refine ⟨?_, fun t ht => ?_, fun t ht => ?_, ?_, ?_, ?_⟩
  · obtain ⟨levelZero, distinct, positive, levels, ascending⟩ := h.numbered
    refine ⟨fun t ht => ?_, ?_, hpartitioned ▸ positive, hpartitioned ▸ levels,
      hpartitioned ▸ ascending⟩
    · rw [hzero] at ht
      obtain ht | ht := List.mem_append.mp ht
      · exact levelZero t ht
      · rw [List.mem_singleton.mp ht]
        exact hlevel
    · rw [hzero, List.map_append, List.nodup_append]
      refine ⟨distinct, List.nodup_singleton _, fun n hn m hm => ?_⟩
      obtain ⟨t, ht, rfl⟩ := List.mem_map.mp hn
      have hle := le_highestNumber ht
      rw [List.mem_singleton.mp hm, hnumber]
      unfold Sst.OverlappingLevel.highestSegmentNumber
      omega
  · obtain rfl | ht := (hkept t).mp ht
    · rw [hlevel, hnumber, hpath]
      exact hname
    · exact h.named t ht
  · obtain rfl | ht := (hkept t).mp ht
    · rw [hpath]
      exact hopen
    · exact hwrote.opened (hfresh t ht) (h.opened t ht)
  · intro t ht u hu
    rw [hqueue] at ht
    obtain rfl | hu := (hsegments u).mp hu
    · rw [hpath]
      exact hfresh t (List.mem_append_right _ ht)
    · exact h.separate t ht u hu
  · rw [hqueue, hpartitioned]
    exact h.bounded
  · intro reader c hreader t ht
    rw [hreaders] at hreader
    exact (hkept t).mpr (Or.inr (h.held reader c hreader t ht))

/-- INTERNAL: a flush that keeps what is read apart from what is to be deleted was careful. -/
theorem flush_careful {table : Table} {factor : ℕ} (h : FilesSound st)
    (hstep : Step st (.flush table factor) st') (hsafe : Safe st') :
    Careful (st, .flush table factor) := by
  obtain ⟨path, s, hname, -, -, hpath, -, -, hqueue, -, -, hzero⟩ := flush_step hstep
  intro t ht hlevel hlast
  have hsegment : s ∈ allSegments st'.bt.container := by
    rw [mem_allSegments, hzero]
    exact Or.inl (List.mem_append_right _ (List.mem_singleton_self s))
  apply hsafe.separate t (hqueue.symm ▸ ht) s hsegment
  have hnamed := h.named t (List.mem_append_right _ ht)
  rw [hlevel, hlast, hname] at hnamed
  rw [hpath]
  exact (Except.ok.inj hnamed).symm

/-! ### A compaction -/

section
variable {bt : Sst.CompactionBt}

/-- INTERNAL: a level is the first one or behind it. -/
theorem levels_cases {level : Sst.PartitionedLevel} (h : level ∈ bt.container.partitionedLevels) :
    level = firstLevel bt ∨ level ∈ bt.container.partitionedLevels.tail := by
  unfold firstLevel
  cases hlevels : bt.container.partitionedLevels with
  | nil =>
    rw [hlevels] at h
    exact absurd h List.not_mem_nil
  | cons first rest =>
    rw [hlevels] at h
    exact List.mem_cons.mp h

/-- INTERNAL: what is in the first level is in the container. -/
theorem firstLevel_mem {s : Sst.Segment} (h : s ∈ (firstLevel bt).segments) :
    firstLevel bt ∈ bt.container.partitionedLevels := by
  unfold firstLevel at h ⊢
  cases hlevels : bt.container.partitionedLevels with
  | nil =>
    rw [hlevels] at h
    exact absurd h List.not_mem_nil
  | cons first rest => exact List.mem_cons_self ..

/-- INTERNAL: a compaction has merged all of level zero into the first level, and nothing else. -/
structure Compacted (st st' : SharedFiles) (chosen deleted written : List Sst.Segment)
    (newLevel : Sst.PartitionedLevel) : Prop where
  all : ∀ s, s ∈ chosen ↔ s ∈ st.bt.container.levelZero.segments
  merged : LevelMerged (firstLevel st.bt) chosen st.bt.dir newLevel deleted written st'.bt.dir
  raised : deleted ≠ [] → ∃ s ∈ newLevel.segments,
    (firstLevel st.bt).highestSegmentNumber < s.number
  queue : st'.bt.segmentsToDelete = st.bt.segmentsToDelete ++ deleted
  readers : st'.readers = st.readers
  levelZero : st'.bt.container.levelZero.segments = []
  levels : st'.bt.container.partitionedLevels =
    newLevel :: st.bt.container.partitionedLevels.tail

/-- INTERNAL: a compaction with one merge.
SOURCE: compaction.rs:36-84; level.rs:239-246 -/
theorem compact_step {orders : Sst.PartitionedLevel → List Sst.Segment → ℕ → Sst.IterationOrder}
    {limit : ℕ} (hcareful : Careful (st, .compact orders limit))
    (hstep : Step st (.compact orders limit) st') :
    ∃ chosen deleted written newLevel, Compacted st st' chosen deleted written newLevel := by
  cases hstep with
  | @compact bt' chosen _ _ fuel newLevels selected all returned =>
    obtain ⟨chosen', hchosen, hcascade⟩ := compactFromLevelZero_cascade returned
    rw [selected] at hchosen
    cases hchosen
    cases hcascade with
    | last round _ within =>
      obtain ⟨deleted, dir, hrun, rfl, -⟩ := compactRound_eq_ok round
      obtain ⟨written, hmerged⟩ := mergeLevels_eq_ok hrun
      exact ⟨chosen, deleted, written, _, fun s => ⟨selectForMerge_subset selected s, all s⟩,
        hmerged, mergeLevels_highest hrun, rfl, rfl, rfl, rfl⟩
    | next round _ exceeds _ rest =>
      -- the first merge fits, so there is no second one
      obtain ⟨deleted, dir, hrun, -, -⟩ := compactRound_eq_ok round
      rw [hcareful chosen _ deleted dir selected hrun] at exceeds
      cases exceeds

/-- INTERNAL: no segment that is kept has the name of a file that a merge may write. -/
theorem not_namedAbove (h : FilesSound st) {s : Sst.Segment} (hs : s ∈ keptSegments st.bt) :
    ¬NamedAbove (firstLevel st.bt).levelNumber (firstLevel st.bt).highestSegmentNumber
      s.filepath := by
  obtain ⟨hpositive, -, htail⟩ := firstLevel_numbered h.numbered
  rintro ⟨n, hn, hname⟩
  obtain ⟨hlevel, rfl⟩ := numbers_inj (h.named s hs) hname
  -- of the levels only the first one has this number
  have hfirst : ∀ level ∈ st.bt.container.partitionedLevels,
      level.levelNumber = s.levelNumber → level = firstLevel st.bt := by
    intro level hmem hsame
    obtain rfl | hbehind := levels_cases hmem
    · rfl
    · have hlt := htail level hbehind
      omega
  obtain hs | hs := List.mem_append.mp hs
  · obtain hs | ⟨level, hmem, hs⟩ := mem_allSegments.mp hs
    · have hzero := h.numbered.levelZero s hs
      omega
    · have hle := le_highestNumber hs
      rw [hfirst level hmem (h.numbered.levels level hmem s hs).symm] at hle
      unfold Sst.PartitionedLevel.highestSegmentNumber at hn
      omega
  · obtain ⟨level, hmem, hsame, hle⟩ := h.bounded s hs (by omega)
    rw [hfirst level hmem hsame] at hle
    omega

section
variable {chosen deleted written : List Sst.Segment} {newLevel : Sst.PartitionedLevel}
  (hc : Compacted st st' chosen deleted written newLevel)
include hc

/-- INTERNAL: the new level has what was written and what was not touched. -/
theorem mem_newLevel {t : Sst.Segment} : t ∈ newLevel.segments ↔ t ∈ written ∨
    t ∈ (firstLevel st.bt).segments ∧ ∀ u ∈ chosen, ¬t.overlaps u := by
  rw [hc.merged.segments.mem_iff, List.mem_append, mem_untouchedBy]

/-- INTERNAL: what is to be deleted was touched or is on level zero. -/
theorem mem_deleted {t : Sst.Segment} : t ∈ deleted ↔ (t ∈ (firstLevel st.bt).segments ∧
    ∃ u ∈ chosen, t.overlaps u) ∨ t ∈ st.bt.container.levelZero.segments := by
  rw [hc.merged.deleted, List.mem_append, mem_touchedBy, hc.all]

/-- INTERNAL: the segments after a compaction. -/
theorem mem_compacted {t : Sst.Segment} : t ∈ allSegments st'.bt.container ↔
    t ∈ newLevel.segments ∨
      ∃ level ∈ st.bt.container.partitionedLevels.tail, t ∈ level.segments := by
  rw [mem_allSegments, hc.levelZero, hc.levels]
  simp only [List.not_mem_nil, false_or, List.mem_cons, exists_eq_or_imp]

/-- INTERNAL: what is in the container now was there before or was written. -/
theorem compacted_cases {t : Sst.Segment} (ht : t ∈ allSegments st'.bt.container) :
    t ∈ written ∨ t ∈ allSegments st.bt.container := by
  rw [mem_compacted hc, mem_newLevel hc] at ht
  obtain (ht | ⟨ht, -⟩) | ⟨level, hmem, ht⟩ := ht
  · exact Or.inl ht
  · exact Or.inr (mem_allSegments.mpr (Or.inr ⟨_, firstLevel_mem ht, ht⟩))
  · exact Or.inr (mem_allSegments.mpr (Or.inr ⟨level, List.mem_of_mem_tail hmem, ht⟩))

/-- INTERNAL: what is to be deleted now was so before or was in the container. -/
theorem deleted_mem {s : Sst.Segment} (hs : s ∈ deleted) : s ∈ allSegments st.bt.container := by
  obtain ⟨hs, -⟩ | hs := (mem_deleted hc).mp hs
  · exact mem_allSegments.mpr (Or.inr ⟨_, firstLevel_mem hs, hs⟩)
  · exact mem_allSegments.mpr (Or.inl hs)

/-- INTERNAL: they are written or were kept before. -/
theorem compacted_kept {t : Sst.Segment} (ht : t ∈ keptSegments st'.bt) :
    t ∈ written ∨ t ∈ keptSegments st.bt := by
  obtain ht | ht := List.mem_append.mp ht
  · exact (compacted_cases hc ht).imp_right (List.mem_append_left _)
  · rw [hc.queue] at ht
    obtain ht | ht := List.mem_append.mp ht
    · exact Or.inr (List.mem_append_right _ ht)
    · exact Or.inr (List.mem_append_left _ (deleted_mem hc ht))

/-- INTERNAL: nothing is forgotten. -/
theorem kept_compacted {t : Sst.Segment} (ht : t ∈ keptSegments st.bt) :
    t ∈ keptSegments st'.bt := by
  unfold keptSegments at ht ⊢
  rw [hc.queue, List.mem_append, List.mem_append, mem_compacted hc, mem_newLevel hc,
    mem_deleted hc]
  obtain ht | ht := List.mem_append.mp ht
  · obtain ht | ⟨level, hmem, ht⟩ := mem_allSegments.mp ht
    · exact Or.inr (Or.inr (Or.inr ht))
    · obtain rfl | hbehind := levels_cases hmem
      · by_cases htouched : ∃ u ∈ chosen, t.overlaps u
        · exact Or.inr (Or.inr (Or.inl ⟨ht, htouched⟩))
        · refine Or.inl (Or.inl (Or.inr ⟨ht, fun u hu hoverlaps => ?_⟩))
          exact htouched ⟨u, hu, hoverlaps⟩
      · exact Or.inl (Or.inr ⟨level, hbehind, ht⟩)
  · exact Or.inr (Or.inl ht)

/-- INTERNAL: the numbers of a level only grow.
SOURCE: level.rs:374-382, 484-486 -/
theorem highest_grows :
    (firstLevel st.bt).highestSegmentNumber ≤ newLevel.highestSegmentNumber := by
  apply highestNumber_le
  intro t ht
  by_cases hnone : deleted = []
  · apply le_highestNumber
    refine (mem_newLevel hc).mpr (Or.inr ⟨ht, fun u hu hoverlaps => ?_⟩)
    have hmem := (mem_deleted hc).mpr (Or.inl ⟨ht, u, hu, hoverlaps⟩)
    rw [hnone] at hmem
    exact List.not_mem_nil hmem
  · obtain ⟨s, hs, hlt⟩ := hc.raised hnone
    exact ((le_highestNumber ht).trans hlt.le).trans (le_highestNumber hs)

/-- INTERNAL: the new container is numbered like the old one. -/
theorem compacted_numbered (h : FilesSound st) : NumberedLevels st'.bt.container := by
  obtain ⟨hpositive, hfirst, htail⟩ := firstLevel_numbered h.numbered
  have hnumber := hc.merged.levelNumber
  refine ⟨?_, ?_, ?_, ?_, ?_⟩
  · rw [hc.levelZero]
    exact fun t ht => absurd ht List.not_mem_nil
  · rw [hc.levelZero]
    exact List.nodup_nil
  · rw [hc.levels]
    refine List.forall_mem_cons.mpr ⟨hnumber ▸ hpositive, fun level hmem => ?_⟩
    exact h.numbered.positive level (List.mem_of_mem_tail hmem)
  · rw [hc.levels]
    refine List.forall_mem_cons.mpr ⟨fun t ht => ?_, fun level hmem => ?_⟩
    · rw [hnumber]
      obtain ht | ⟨ht, -⟩ := (mem_newLevel hc).mp ht
      · exact hc.merged.numbered.level t ht
      · exact hfirst t ht
    · exact h.numbered.levels level (List.mem_of_mem_tail hmem)
  · rw [hc.levels]
    refine List.pairwise_cons.mpr ⟨hnumber ▸ htail, ?_⟩
    exact h.numbered.ascending.sublist (List.tail_sublist _)

/-- INTERNAL: what was merged has no file in the container any more. -/
theorem compacted_separate (h : FilesSound st) {s t : Sst.Segment}
    (hs : s ∈ st'.bt.segmentsToDelete) (ht : t ∈ allSegments st'.bt.container) :
    s.filepath ≠ t.filepath := by
  intro hsame
  obtain ⟨hpositive, hfirst, htail⟩ := firstLevel_numbered h.numbered
  rw [hc.queue] at hs
  have hkept : s ∈ keptSegments st.bt := by
    obtain hs | hs := List.mem_append.mp hs
    · exact List.mem_append_right _ hs
    · exact List.mem_append_left _ (deleted_mem hc hs)
  obtain hnew | hold := compacted_cases hc ht
  · -- a file that was written has a new name
    apply not_namedAbove h hkept
    rw [hsame]
    exact ⟨t.number, hc.merged.numbered.above t hnew, hc.merged.numbered.named t hnew⟩
  · obtain hs | hs := List.mem_append.mp hs
    · exact h.separate s hs t hold hsame
    · -- a segment that was merged has left the container
      obtain rfl := eq_of_same_file (h.opened s hkept) (h.opened t (List.mem_append_left _ hold))
        hsame
      have hzero : ∀ s ∈ chosen, s.levelNumber = 0 := fun s hs =>
        h.numbered.levelZero s ((hc.all s).mp hs)
      obtain ⟨hle, hgone⟩ := merged_leave hc.merged hpositive hfirst hzero hs
      obtain hin | ⟨level, hmem, hin⟩ := (mem_compacted hc).mp ht
      · exact hgone hin
      · have hlt := htail level hmem
        rw [h.numbered.levels level (List.mem_of_mem_tail hmem) s hin] at hle
        omega

/-- INTERNAL: the numbers of what is to be deleted stay used. -/
theorem compacted_bounded (h : FilesSound st) {s : Sst.Segment}
    (hs : s ∈ st'.bt.segmentsToDelete) (hlevel : 0 < s.levelNumber) :
    ∃ level ∈ st'.bt.container.partitionedLevels, level.levelNumber = s.levelNumber ∧
      s.number ≤ level.highestSegmentNumber := by
  have hgrows := highest_grows hc
  rw [hc.levels]
  rw [hc.queue] at hs
  obtain hs | hs := List.mem_append.mp hs
  · obtain ⟨level, hmem, hsame, hle⟩ := h.bounded s hs hlevel
    obtain rfl | hbehind := levels_cases hmem
    · exact ⟨newLevel, List.mem_cons_self .., hc.merged.levelNumber.trans hsame, hle.trans hgrows⟩
    · exact ⟨level, List.mem_cons_of_mem _ hbehind, hsame, hle⟩
  · obtain ⟨hs, -⟩ | hs := (mem_deleted hc).mp hs
    · refine ⟨newLevel, List.mem_cons_self .., ?_, (le_highestNumber hs).trans hgrows⟩
      rw [hc.merged.levelNumber]
      exact (h.numbered.levels _ (firstLevel_mem hs) s hs).symm
    · exact absurd (h.numbered.levelZero s hs) hlevel.ne'

/-- INTERNAL: a compaction with one merge keeps what holds. -/
theorem compacted_sound (h : FilesSound st) : FilesSound st' where
  numbered := compacted_numbered hc h
  named s hs := by
    obtain hs | hs := compacted_kept hc hs
    · rw [hc.merged.numbered.level s hs]
      exact hc.merged.numbered.named s hs
    · exact h.named s hs
  opened s hs := by
    obtain hs | hs := compacted_kept hc hs
    · exact hc.merged.numbered.opened s hs
    · exact hc.merged.wrote.opened (not_namedAbove h hs) (h.opened s hs)
  separate s hs t ht := compacted_separate hc h hs ht
  bounded s hs := compacted_bounded hc h hs
  held reader c hreader s hs := by
    rw [hc.readers] at hreader
    exact kept_compacted hc (h.held reader c hreader s hs)

end

/-- INTERNAL: a compaction with a second merge notes segments that stay in the container.
SOURCE: compaction.rs:36-84 -/
theorem compact_careful
    {orders : Sst.PartitionedLevel → List Sst.Segment → ℕ → Sst.IterationOrder} {limit : ℕ}
    (h : FilesSound st) (hstep : Step st (.compact orders limit) st') (hsafe : Safe st') :
    Careful (st, .compact orders limit) := by
  cases hstep with
  | @compact bt' chosen _ _ fuel newLevels selected all returned =>
    obtain ⟨appended, hqueue, hiff⟩ := merged_segments_leave_iff h.numbered returned
    refine hiff.mp fun s hs level hmem hin => ?_
    have hdeleted : s ∈ bt'.segmentsToDelete := hqueue ▸ List.mem_append_right _ hs
    exact hsafe.separate s hdeleted s (mem_allSegments.mpr (Or.inr ⟨level, hmem, hin⟩)) rfl

end

/-! ### Readers and removals -/

/-- INTERNAL: a reader copies the container or lets go of a copy. -/
theorem readers_sound {readers : ℕ → Option Sst.LevelContainer} (h : FilesSound st)
    (hheld : ∀ reader c, readers reader = some c → ∀ s ∈ allSegments c,
      s ∈ keptSegments st.bt) : FilesSound { st with readers := readers } :=
  ⟨h.numbered, h.named, h.opened, h.separate, h.bounded, hheld⟩

/-- INTERNAL: only files of segments that nothing refers to are removed.
SOURCE: compaction.rs:172-194 -/
theorem remove_sound (h : FilesSound st) (hstep : Step st .removeSegmentFiles st') :
    FilesSound st' := by
  cases hstep with
  | @removeSegmentFiles bt' referenced counted removed =>
    unfold Sst.CompactionBt.removeSegmentFiles at removed
    rw [run_bind_ok (EStateM.run_get st.bt), run_bind_ok (EStateM.run_modify ..)] at removed
    obtain ⟨dir, hrun, rfl⟩ := run_onPart_eq_ok removed
    have hgone := forM_tryRemove_removed hrun
    dsimp only at hgone
    have hmem : ∀ {s}, s ∈ allSegments st.bt.container ++
        st.bt.segmentsToDelete.filter referenced → s ∈ keptSegments st.bt := by
      intro s hs
      obtain hs | hs := List.mem_append.mp hs
      · exact List.mem_append_left _ hs
      · exact List.mem_append_right _ (List.mem_filter.mp hs).1
    -- the file of what is still referred to is not that of what is removed
    have hkeeps : ∀ s ∈ allSegments st.bt.container ++
        st.bt.segmentsToDelete.filter referenced,
        s.filepath ∉ (st.bt.segmentsToDelete.filter fun s => !referenced s).map
          Sst.Segment.filepath := by
      intro s hs hfile
      obtain ⟨t, ht, hsame⟩ := List.mem_map.mp hfile
      obtain ⟨htqueue, hunreferenced⟩ := List.mem_filter.mp ht
      obtain hs | hs := List.mem_append.mp hs
      · exact h.separate t htqueue s hs hsame
      · obtain ⟨hsqueue, hreferenced⟩ := List.mem_filter.mp hs
        obtain rfl := eq_of_same_file (h.opened t (List.mem_append_right _ htqueue))
          (h.opened s (List.mem_append_right _ hsqueue)) hsame
        rw [hreferenced] at hunreferenced
        cases hunreferenced
    refine ⟨h.numbered, fun s hs => h.named s (hmem hs), fun s hs => ?_, ?_, ?_, ?_⟩
    · exact hgone.opened (hkeeps s hs) (h.opened s (hmem hs))
    · exact fun s hs => h.separate s (List.mem_filter.mp hs).1
    · exact fun s hs => h.bounded s (List.mem_filter.mp hs).1
    · intro reader c hreader s hs
      obtain hin | hin := List.mem_append.mp (h.held reader c hreader s hs)
      · exact List.mem_append_left _ hin
      · refine List.mem_append_right _ (List.mem_filter.mpr ⟨hin, ?_⟩)
        exact (counted s hin).mpr (Or.inr ⟨reader, c, hreader, hs⟩)

/-! ## Every state -/

/-- INTERNAL: a careful step keeps what holds. -/
theorem filesSound_step {a : SharedFiles.Action} (h : FilesSound st) (hcareful : Careful (st, a))
    (hstep : Step st a st') : FilesSound st' := by
  cases a with
  | flush table factor => exact flush_sound h hcareful hstep
  | compact orders limit =>
    obtain ⟨chosen, deleted, written, newLevel, hc⟩ := compact_step hcareful hstep
    exact compacted_sound hc h
  | acquire reader =>
    cases hstep with
    | acquire idle =>
      refine readers_sound h fun other c hreader s hs => ?_
      by_cases hother : other = reader
      · subst hother
        rw [Function.update_self] at hreader
        cases hreader
        exact List.mem_append_left _ hs
      · rw [Function.update_of_ne hother] at hreader
        exact h.held other c hreader s hs
  | release reader =>
    cases hstep with
    | release =>
      refine readers_sound h fun other c hreader s hs => ?_
      by_cases hother : other = reader
      · subst hother
        rw [Function.update_self] at hreader
        cases hreader
      · rw [Function.update_of_ne hother] at hreader
        exact h.held other c hreader s hs
  | removeSegmentFiles => exact remove_sound h hstep

/-- INTERNAL: a step to a safe state was careful. -/
theorem careful_of_safe {a : SharedFiles.Action} (h : FilesSound st) (hstep : Step st a st')
    (hsafe : Safe st') : Careful (st, a) := by
  cases a with
  | flush table factor => exact flush_careful h hstep hsafe
  | compact orders limit => exact compact_careful h hstep hsafe
  | acquire reader => exact trivial
  | release reader => exact trivial
  | removeSegmentFiles => exact trivial

/-- In all states of a run no file of the container is to be deleted, and the files of all segments
that are referred to are as they were opened, if and only if no flush takes the number of a segment
of level zero that is to be deleted and no compaction goes on to a second merge.
SOURCE: memtable_flusher.rs:27-37; compaction.rs:36-84, 172-194; level.rs:239-267, 319-327 -/
theorem live_files_kept_iff {start last : SharedFiles} (hstart : Started start)
    {steps : List (SharedFiles × SharedFiles.Action)} (hrun : Run Step start steps last) :
    ((∀ p ∈ steps, Safe p.1) ∧ Safe last) ↔ ∀ p ∈ steps, Careful p :=
  hrun.good_iff (filesSound_start hstart) (fun _ => safe_of_sound)
    (fun _ _ _ h hcareful hstep => filesSound_step h hcareful hstep)
    fun _ _ _ h hstep hsafe => careful_of_safe h hstep hsafe

end

/-! ## A name that is used twice -/

/-- The step of an action; removals are left out. -/
def runAction (fuel : ℕ) (st : SharedFiles) : SharedFiles.Action → Option SharedFiles
  | .flush table factor =>
    match (Flusher.flush table).run ⟨st.bt.container, st.bt.dir, factor⟩ with
    | .ok _ f => some { st with bt := { st.bt with container := f.sstable, dir := f.dir } }
    | .error _ _ => none
  | .compact orders limit =>
    match st.bt.container.levelZero.segmentsToMerge,
        (Sst.CompactionBt.compactFromLevelZero (Sst.mergeLevels orders limit) fuel).run st.bt with
    | .ok chosen, .ok newLevels bt =>
      if ∀ s ∈ st.bt.container.levelZero.segments, s ∈ chosen then
        some { st with bt := { bt with container := bt.container.swapAllLevels newLevels } }
      else none
    | _, _ => none
  | .acquire reader =>
    if st.readers reader = none then
      some { st with readers := Function.update st.readers reader (some st.bt.container) }
    else none
  | .release reader => some { st with readers := Function.update st.readers reader none }
  | .removeSegmentFiles => none

/-- INTERNAL: it is a step. -/
theorem runAction_step {fuel : ℕ} {st st' : SharedFiles} {a : SharedFiles.Action}
    (h : runAction fuel st a = some st') : Step st a st' := by
  cases a with
  | flush table factor =>
    unfold runAction at h
    dsimp only at h
    cases hflush : (Flusher.flush table).run ⟨st.bt.container, st.bt.dir, factor⟩ with
    | ok u f =>
      rw [hflush] at h
      cases h
      exact .flush hflush
    | error e f =>
      rw [hflush] at h
      cases h
  | compact orders limit =>
    unfold runAction at h
    dsimp only at h
    cases hselected : st.bt.container.levelZero.segmentsToMerge with
    | error e =>
      rw [hselected] at h
      cases h
    | ok chosen =>
      cases hreturned : (Sst.CompactionBt.compactFromLevelZero
          (Sst.mergeLevels orders limit) fuel).run st.bt with
      | error e bt =>
        rw [hselected, hreturned] at h
        cases h
      | ok newLevels bt =>
        rw [hselected, hreturned] at h
        obtain ⟨hall, hsome⟩ := Option.ite_none_right_eq_some.mp h
        cases hsome
        exact .compact hselected hall hreturned
  | acquire reader =>
    obtain ⟨hidle, hsome⟩ := Option.ite_none_right_eq_some.mp h
    cases hsome
    exact .acquire hidle
  | release reader =>
    cases h
    exact .release
  | removeSegmentFiles => cases h

/-- The steps of the actions. -/
def runActions (fuel : ℕ) : SharedFiles → List SharedFiles.Action →
    Option (List (SharedFiles × SharedFiles.Action) × SharedFiles)
  | st, [] => some ([], st)
  | st, a :: actions => do
    let (steps, last) ← runActions fuel (← runAction fuel st a) actions
    return ((st, a) :: steps, last)

/-- INTERNAL: a run goes on with the actions. -/
theorem runActions_run {fuel : ℕ} {actions : List SharedFiles.Action}
    {start st last : SharedFiles} {before steps : List (SharedFiles × SharedFiles.Action)}
    (h : Run Step start before st) (hrun : runActions fuel st actions = some (steps, last)) :
    Run Step start (before ++ steps) last := by
  induction actions generalizing st before steps with
  | nil =>
    cases hrun
    rwa [List.append_nil]
  | cons a actions ih =>
    unfold runActions at hrun
    obtain ⟨st', hstep, hrest⟩ := Option.bind_eq_some_iff.mp hrun
    obtain ⟨⟨rest, last'⟩, hrest, hsome⟩ := Option.bind_eq_some_iff.mp hrest
    cases hsome
    have hall := ih (h.snoc (runAction_step hstep)) hrest
    rwa [List.append_assoc] at hall

/-- A check for careful steps. -/
def carefulStep (p : SharedFiles × SharedFiles.Action) : Bool :=
  match p.2 with
  | .flush _ _ => decide (∀ s ∈ p.1.bt.segmentsToDelete, s.levelNumber = 0 →
      s.number ≠ p.1.bt.container.levelZero.highestSegmentNumber + 1)
  | .compact orders limit =>
    match p.1.bt.container.levelZero.segmentsToMerge with
    | .error _ => true
    | .ok chosen =>
      match (Sst.mergeLevels orders limit (firstLevel p.1.bt) chosen).run p.1.bt.dir with
      | .error _ _ => true
      | .ok (newLevel, _) _ => decide (newLevel.exceedsTargetSize = .ok false)
  | _ => true

/-- INTERNAL: care can be checked step by step. -/
theorem careful_of_check {p : SharedFiles × SharedFiles.Action} (h : carefulStep p = true) :
    Careful p := by
  obtain ⟨st, a⟩ := p
  cases a with
  | flush table factor =>
    have hnumbers := of_decide_eq_true h
    exact hnumbers
  | compact orders limit =>
    intro chosen newLevel deleted dir hselected hrun
    unfold carefulStep at h
    dsimp only at h hselected hrun
    rw [hselected] at h
    dsimp only at h
    rw [hrun] at h
    exact of_decide_eq_true h
  | acquire reader => exact trivial
  | release reader => exact trivial
  | removeSegmentFiles => exact trivial

/-- A store without segments. -/
def noFiles : SharedFiles := ⟨⟨⟨⟨[], 1⟩, []⟩, [], 1000, Dir.empty⟩, fun _ => none⟩

/-- INTERNAL: no files are a start. -/
theorem noFiles_started : Started noFiles where
  queue := rfl
  readers := fun _ => rfl
  numbered :=
    ⟨fun _ hs => absurd hs List.not_mem_nil, List.nodup_nil,
      fun _ hlevel => absurd hlevel List.not_mem_nil,
      fun _ hlevel => absurd hlevel List.not_mem_nil, List.Pairwise.nil⟩
  named := fun _ hs => absurd hs List.not_mem_nil
  opened := fun _ hs => absurd hs List.not_mem_nil

/-- A table with one value. -/
def tableWith (key value : String) (sequenceNumber : ℕ) : Table :=
  (∅ : Table).insert key ⟨some value, sequenceNumber⟩

/-- A reader holds on to a segment of level zero that is merged into level one. -/
theorem live_files_kept_reader : ∃ steps last, Run Step noFiles steps last ∧
    steps.length = 4 ∧ (∀ p ∈ steps, Safe p.1) ∧ Safe last := by
  have hrun : (runActions 9 noFiles [.flush (tableWith "a" "v" 0) 1, .acquire 0,
      .compact frontOrders 9, .release 0]).map (fun r =>
        (r.1.length, r.1.all carefulStep)) = some (4, true) := by
    decide +kernel
  obtain ⟨⟨steps, last⟩, hactions, hseen⟩ := Option.map_eq_some_iff.mp hrun
  obtain ⟨hlength, hcareful⟩ := Prod.mk.inj hseen
  have hall := runActions_run Run.nil hactions
  refine ⟨steps, last, hall, hlength, ?_⟩
  refine (live_files_kept_iff noFiles_started hall).mpr fun p hp => ?_
  exact careful_of_check (List.all_eq_true.mp hcareful p hp)

/-- A segment of level zero is merged while a reader holds on to it, and the next flush writes to
its file. -/
theorem flush_overwrites_queued : ∃ steps last, Started noFiles ∧ Run Step noFiles steps last ∧
    ∃ s ∈ last.bt.segmentsToDelete, Referenced last s ∧
      (∃ t ∈ allSegments last.bt.container, s.filepath = t.filepath) ∧
      Sst.Segment.fromFile last.bt.dir s.filepath ≠ .ok (.ok s) := by
  have hrun : (runActions 9 noFiles [.flush (tableWith "a" "v" 0) 1, .acquire 0,
      .compact frontOrders 9, .flush (tableWith "a" "w" 30) 1]).map (fun r =>
        decide (∃ s ∈ r.2.bt.segmentsToDelete,
          (∃ c ∈ r.2.readers 0, s ∈ allSegments c) ∧
          (∃ t ∈ allSegments r.2.bt.container, s.filepath = t.filepath) ∧
          Sst.Segment.fromFile r.2.bt.dir s.filepath ≠ .ok (.ok s))) = some true := by
    decide +kernel
  obtain ⟨⟨steps, last⟩, hactions, hseen⟩ := Option.map_eq_some_iff.mp hrun
  obtain ⟨s, hs, ⟨c, hc, hin⟩, hclash, hwritten⟩ := of_decide_eq_true hseen
  exact ⟨steps, last, noFiles_started, runActions_run Run.nil hactions, s, hs,
    Or.inr ⟨0, c, hc, hin⟩, hclash, hwritten⟩

end Rkvs.Analysis

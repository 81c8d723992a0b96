import Rkvs.Analysis.Cascade
import Rkvs.Analysis.RecoveryMerges
import Rkvs.Interface.RestartFiles

/-!
# Segments without a file after a restart

The files of the segments that a restart merges are removed, and the levels that the segments come
from still list them. After the last merge no file is written any more, so its segments are without
their files.
-/

set_option autoImplicit false

namespace Rkvs.Analysis

open Rkvs.Library Rkvs.Model Rkvs.Interface

/-! ## Opened files -/

/-- INTERNAL: all complete files are opened, and none is removed.
SOURCE: level.rs:96-110 -/
theorem openSegments_complete {d : Dir} {names : List String}
    (h : ∀ name ∈ names, ∃ s, Sst.Segment.fromFile d name = .ok (.ok s)) :
    (Sst.LevelContainer.openSegments names).run d = .ok (names.filterMap fun name =>
      match Sst.Segment.fromFile d name with
      | .ok (.ok s) => some s
      | _ => none) d := by
  induction names with
  | nil => rfl
  | cons name names ih =>
    obtain ⟨s, hopen⟩ := h name (List.mem_cons_self ..)
    have hrest := ih fun other hother => h other (List.mem_cons_of_mem _ hother)
    rw [Sst.LevelContainer.openSegments, run_bind_ok (EStateM.run_get d), hopen,
      run_bind_ok (run_liftExec_ok ..)]
    dsimp only
    rw [run_bind_ok hrest, List.filterMap_cons, hopen]
    rfl

/-- INTERNAL: an opened segment has its file. -/
theorem filepath_of_mem_segmentsIn {dir : Dir} {s : Sst.Segment} (h : s ∈ segmentsIn dir) :
    s.filepath ∈ dir.names := by
  obtain ⟨name, hname, hsome⟩ := List.mem_filterMap.mp h
  cases hopen : Sst.Segment.fromFile dir name with
  | error e =>
    rw [hopen] at hsome
    cases hsome
  | ok opened =>
    cases opened with
    | error e =>
      rw [hopen] at hsome
      cases hsome
    | ok t =>
      rw [hopen] at hsome
      cases hsome
      rw [(fromFile_eq_ok hopen).2.1]
      exact hname

/-! ## Removed files -/

/-- INTERNAL: a removal that succeeds. -/
theorem remove_eq_ok {name : String} {d d' : Dir} (h : (Dir.remove name).run d = .ok () d') :
    ∀ other, other ∈ d'.names ↔ other ∈ d.names ∧ other ≠ name := by
  unfold Dir.remove at h
  obtain ⟨ev, mid, hnext, hrest⟩ := run_bind_eq_ok h
  have hfiles := Dir.nextEvent_files hnext
  cases ev with
  | fail written => cases hrest
  | ok =>
    rw [run_bind_ok (EStateM.run_get mid)] at hrest
    by_cases hmem : name ∈ mid.names
    · rw [if_neg (not_not.mpr hmem)] at hrest
      cases hrest
      intro other
      rw [Dir.mem_names_removeFile]
      unfold Dir.names
      rw [hfiles]
    · rw [if_pos hmem] at hrest
      cases hrest

/-- INTERNAL: the files of removed segments are gone. -/
theorem removed_not_mem_names {segments : List Sst.Segment} {d d' : Dir}
    (h : (segments.forM fun s => Dir.remove s.filepath).run d = .ok () d') :
    (∀ name ∈ d'.names, name ∈ d.names) ∧ ∀ s ∈ segments, s.filepath ∉ d'.names := by
  induction segments generalizing d with
  | nil =>
    cases h
    exact ⟨fun name hname => hname, fun s hs => absurd hs List.not_mem_nil⟩
  | cons s segments ih =>
    obtain ⟨⟨⟩, mid, hremove, hrest⟩ := run_bind_eq_ok h
    obtain ⟨hkept, hgone⟩ := ih hrest
    have hnames := remove_eq_ok hremove
    refine ⟨fun name hname => ((hnames name).mp (hkept name hname)).1, fun t ht hmem => ?_⟩
    obtain rfl | ht := List.mem_cons.mp ht
    · exact ((hnames _).mp (hkept _ hmem)).2 rfl
    · exact hgone t ht hmem

/-! ## Merges -/

section
variable {levelZeroTargetSize levelSizeFactor sparsity fuel : ℕ} {writes : Sst.PartitionedLevel →
  List Sst.Segment → EStateM Fault Dir (List Sst.Segment)}

/-- INTERNAL: a level within its target, where no merge goes before, asks for none. -/
theorem checkMerges_cons {level : Sst.PartitionedLevel} {levels : List Sst.PartitionedLevel}
    (h : Sst.LevelContainer.checkMerges (level :: levels) = .ok ()) :
    (levels ≠ [] → level.exceedsTargetSize = .ok false) ∧
      Sst.LevelContainer.checkMerges levels = .ok () := by
  rw [Sst.LevelContainer.checkMerges] at h
  obtain ⟨exceeded, hover, hrest⟩ := exec_bind_eq_ok.mp h
  by_cases hboth : exceeded = true ∧ levels ≠ []
  · rw [if_pos hboth] at hrest
    cases hrest
  · rw [if_neg hboth] at hrest
    refine ⟨fun hne => ?_, hrest⟩
    have hwithin : exceeded = false := Bool.eq_false_of_not_eq_true fun htrue => hboth ⟨htrue, hne⟩
    rw [hover, hwithin]

/-- INTERNAL: where nothing comes from level zero, the levels ask for a merge if and only if one of
them is over its target.
SOURCE: level.rs:164-203 -/
theorem recoverLevels_within {merge : Sst.Merge} {levels recovered res : List Sst.PartitionedLevel}
    {selected : List Sst.Segment} {d d' : Dir}
    (hcheck : Sst.LevelContainer.checkMerges levels = .ok ())
    (h : (Sst.LevelContainer.recoverLevels merge levels [] recovered).run d =
      .ok (res, selected) d') :
    d' = d ∧ (selected = [] ↔ ∀ level ∈ levels, fileSizes level.segments ≤ level.targetSize) := by
  induction levels generalizing recovered with
  | nil =>
    cases h
    exact ⟨rfl, iff_of_true rfl fun level hlevel => absurd hlevel List.not_mem_nil⟩
  | cons level levels ih =>
    obtain ⟨newLevel, mid, chosen, ⟨-, rfl, rfl⟩ | ⟨hne, -⟩, hselects, hrest⟩ := recoverLevels_cons h
    · obtain ⟨hinner, hlater⟩ := checkMerges_cons hcheck
      have hchosen := selectForMerge_eq_nil_iff hselects
      rw [List.forall_mem_cons]
      by_cases hlast : levels = []
      · subst hlast
        cases hrest
        exact ⟨rfl, hchosen.trans (and_iff_left fun l hl => absurd hl List.not_mem_nil).symm⟩
      · cases hselects.symm.trans (segmentsToMerge_of_within (hinner hlast))
        obtain ⟨hdir, hiff⟩ := ih hlater hrest
        exact ⟨hdir, hiff.trans (and_iff_right (hchosen.mp rfl)).symm⟩
    · exact absurd rfl hne

/-- INTERNAL: the segments that were merged have lost their files.
SOURCE: level.rs:193-196, 211-214, 441-477 -/
theorem mergeAndRemove_removes {level newLevel : Sst.PartitionedLevel} {chosen : List Sst.Segment}
    {d d' : Dir} (h : (Sst.LevelContainer.mergeAndRemove (Sst.PartitionedLevel.merge writes) level
      chosen).run d = .ok newLevel d') : ∀ s ∈ chosen, s.filepath ∉ d'.names := by
  obtain ⟨deleted, mid, hmerge, hremove⟩ := mergeAndRemove_eq_ok h
  obtain ⟨out, mid', -, hreturn⟩ := run_bind_eq_ok hmerge
  cases hreturn
  exact fun s hs => (removed_not_mem_names hremove).2 s (List.mem_append_right _ hs)

/-- INTERNAL: some segment of level zero or of a level is without its file. -/
def Dangles (zero : List Sst.Segment) (levels : List Sst.PartitionedLevel) (d : Dir) : Prop :=
  ∃ s ∈ zero ++ levels.flatMap Sst.PartitionedLevel.segments, s.filepath ∉ d.names

/-- INTERNAL: a merge of listed segments leaves some of them without their files. -/
theorem dangles_of_merge {zero chosen : List Sst.Segment} {levels : List Sst.PartitionedLevel}
    {level newLevel : Sst.PartitionedLevel} {d d' : Dir} (hne : chosen ≠ [])
    (hsub : ∀ s ∈ chosen, s ∈ zero ++ levels.flatMap Sst.PartitionedLevel.segments)
    (h : (Sst.LevelContainer.mergeAndRemove (Sst.PartitionedLevel.merge writes) level
      chosen).run d = .ok newLevel d') : Dangles zero levels d' := by
  obtain ⟨s, hs⟩ := List.exists_mem_of_ne_nil _ hne
  exact ⟨s, hsub s hs, mergeAndRemove_removes h s hs⟩

/-- INTERNAL: one more level lists more segments. -/
theorem listed_append {zero : List Sst.Segment} {levels : List Sst.PartitionedLevel}
    {level : Sst.PartitionedLevel} {s : Sst.Segment} :
    s ∈ zero ++ (levels ++ [level]).flatMap Sst.PartitionedLevel.segments ↔
      s ∈ zero ++ levels.flatMap Sst.PartitionedLevel.segments ∨ s ∈ level.segments := by
  rw [List.flatMap_append, List.flatMap_singleton, ← List.append_assoc, List.mem_append]

/-- INTERNAL: a missing file stays missing with one level more. -/
theorem Dangles.append {zero : List Sst.Segment} {levels : List Sst.PartitionedLevel} {d : Dir}
    (h : Dangles zero levels d) (level : Sst.PartitionedLevel) :
    Dangles zero (levels ++ [level]) d := by
  obtain ⟨s, hs, hgone⟩ := h
  exact ⟨s, listed_append.mpr (Or.inl hs), hgone⟩

/-- INTERNAL: segments without a file stay so in the loop over the levels that were found, or its
last merge makes some.
SOURCE: level.rs:189-203 -/
theorem recoverLevels_dangles {zero chosen selected : List Sst.Segment}
    {levels recovered res : List Sst.PartitionedLevel} {d d' : Dir}
    (hsub : ∀ s ∈ chosen, s ∈ zero ++ recovered.flatMap Sst.PartitionedLevel.segments)
    (hdangles : chosen = [] → Dangles zero recovered d)
    (h : (Sst.LevelContainer.recoverLevels (Sst.PartitionedLevel.merge writes) levels chosen
      recovered).run d = .ok (res, selected) d') :
    (∀ s ∈ selected, s ∈ zero ++ res.flatMap Sst.PartitionedLevel.segments) ∧
      (selected = [] → Dangles zero res d') := by
  induction levels generalizing chosen recovered d with
  | nil =>
    cases h
    exact ⟨hsub, hdangles⟩
  | cons level levels ih =>
    obtain ⟨newLevel, mid, chosen', hmerge, hselects, hrest⟩ := recoverLevels_cons h
    refine ih (fun s hs => ?_) (fun _ => ?_) hrest
    · exact listed_append.mpr (Or.inr (selectForMerge_subset hselects s hs))
    · apply Dangles.append
      obtain ⟨hnone, -, rfl⟩ | ⟨hne, hmerge⟩ := hmerge
      · exact hdangles hnone
      · exact dangles_of_merge hne hsub hmerge

/-- INTERNAL: the same of the loop that adds levels.
SOURCE: level.rs:205-217 -/
theorem addLevels_dangles {zero selected : List Sst.Segment}
    {recovered res : List Sst.PartitionedLevel} {d d' : Dir}
    (hsub : ∀ s ∈ selected, s ∈ zero ++ recovered.flatMap Sst.PartitionedLevel.segments)
    (hdangles : selected = [] → Dangles zero recovered d)
    (h : (Sst.LevelContainer.addLevels levelZeroTargetSize levelSizeFactor
      (Sst.PartitionedLevel.merge writes) fuel recovered selected).run d = .ok res d') :
    Dangles zero res d' := by
  induction fuel generalizing recovered selected d with
  | zero =>
    cases selected with
    | nil =>
      obtain ⟨rfl, rfl⟩ := addLevels_nil h
      exact hdangles rfl
    | cons s selected => cases h
  | succ fuel ih =>
    by_cases hne : selected = []
    · subst hne
      obtain ⟨rfl, rfl⟩ := addLevels_nil h
      exact hdangles rfl
    · obtain ⟨more, size, newLevel, mid, selected', hfuel, -, hmerge, hselects, hrest⟩ :=
        addLevels_cons hne h
      cases hfuel
      refine ih (fun s hs => ?_) (fun _ => ?_) hrest
      · exact listed_append.mpr (Or.inr (selectForMerge_subset hselects s hs))
      · exact (dangles_of_merge hne hsub hmerge).append newLevel

/-- INTERNAL: a restart selects nothing if and only if no level of the opened files is over its
target.
SOURCE: level.rs:164-217 -/
theorem selects_nothing_iff {merge : Sst.Merge} {opened sorted chosen selected : List Sst.Segment}
    {levels recovered res : List Sst.PartitionedLevel} {d mid d' : Dir}
    (h : Recovered levelZeroTargetSize levelSizeFactor sparsity fuel merge opened d sorted levels
      recovered res chosen selected mid d') :
    NoLevelOver levelZeroTargetSize levelSizeFactor opened ↔ chosen = [] ∧ selected = [] := by
  have hlevelSize : ∀ n, fileSizes (byNumber (ofLevel sorted n)) = fileSizes (ofLevel opened n) :=
    fun n => fileSizes_perm ((List.mergeSort_perm ..).trans (h.perm.filter _))
  have hzero := selectForMerge_eq_nil_iff h.choice
  rw [hlevelSize] at hzero
  by_cases hchosen : chosen = []
  · subst hchosen
    obtain ⟨rfl, -⟩ := recoverLevels_eq_ok h.checked h.recovery
    obtain ⟨-, hwithin⟩ := recoverLevels_within h.checked h.recovery
    rw [and_iff_right rfl, hwithin]
    have hlevel : ∀ level ∈ recovered, fileSizes level.segments ≤ level.targetSize ↔
        fileSizes (ofLevel opened level.levelNumber) ≤
          levelZeroTargetSize * level.levelNumber * levelSizeFactor := by
      intro level hlevel
      obtain ⟨size, hfirst, hsecond⟩ := exec_bind_eq_ok.mp (h.grouped.target level hlevel)
      rw [← (checkedMul_eq_ok hfirst).1] at hsecond
      rw [h.grouped.holds level hlevel, hlevelSize, (checkedMul_eq_ok hsecond).1]
    constructor
    · rintro ⟨-, hover⟩ level hmem
      obtain ⟨s, hs, hnumber⟩ := h.grouped.inhabited level hmem
      have hpos := h.grouped.positive level hmem
      rw [hlevel level hmem, ← hnumber]
      exact hover s (h.perm.mem_iff.mp hs) (hnumber ▸ hpos)
    · intro hall
      refine ⟨hzero.mp rfl, fun s hs hpos => ?_⟩
      obtain ⟨level, hmem, hnumber⟩ := h.grouped.complete s (h.perm.mem_iff.mpr hs) hpos
      rw [← hnumber]
      exact (hlevel level hmem).mp (hall level hmem)
  · exact iff_of_false (fun hover => hchosen (hzero.mpr hover.1)) fun hboth => hchosen hboth.1

/-- INTERNAL: then it leaves the levels and the files as they are. -/
theorem unchanged_of_selects_nothing {merge : Sst.Merge} {opened sorted : List Sst.Segment}
    {levels recovered res : List Sst.PartitionedLevel} {d mid d' : Dir}
    (h : Recovered levelZeroTargetSize levelSizeFactor sparsity fuel merge opened d sorted levels
      recovered res [] [] mid d') : res = levels ∧ d' = d := by
  obtain ⟨rfl, -⟩ := recoverLevels_eq_ok h.checked h.recovery
  obtain ⟨rfl, -⟩ := recoverLevels_within h.checked h.recovery
  exact addLevels_nil h.added

/-- Every segment of the container has its file if and only if no level of the files was over its
target, so that nothing was merged.
SOURCE: level.rs:81-222 -/
theorem restart_leaves_files_iff {dir d' : Dir} {c : Sst.LevelContainer}
    (hfiles : CompleteFiles dir)
    (h : (Sst.LevelContainer.fromDir levelZeroTargetSize levelSizeFactor sparsity
      (Sst.PartitionedLevel.merge writes) fuel).run dir = .ok c d') :
    AllPresent c d' ↔ NoLevelOver levelZeroTargetSize levelSizeFactor (segmentsIn dir) := by
  obtain ⟨opened, d, hopen, hrest⟩ := fromDir_steps h
  have hall : (Sst.LevelContainer.openSegments dir.names).run dir = .ok (segmentsIn dir) dir :=
    openSegments_complete hfiles
  cases hall.symm.trans hopen
  obtain ⟨hnone, rfl, rfl⟩ | ⟨sorted, levels, recovered, res, chosen, selected, mid, hsteps, rfl⟩ :=
    hrest
  · rw [hnone]
    refine iff_of_true (fun s hs => absurd hs List.not_mem_nil) ⟨Nat.zero_le _, fun s hs => ?_⟩
    exact absurd hs List.not_mem_nil
  · rw [selects_nothing_iff hsteps]
    by_cases hnothing : chosen = [] ∧ selected = []
    · refine iff_of_true ?_ hnothing
      obtain ⟨rfl, rfl⟩ := hnothing
      obtain ⟨rfl, rfl⟩ := unchanged_of_selects_nothing hsteps
      intro s hs
      apply filepath_of_mem_segmentsIn
      apply hsteps.perm.mem_iff.mp
      obtain hs | hs := List.mem_append.mp hs
      · exact (mem_ofLevel.mp (mem_byNumber.mp hs)).1
      · obtain ⟨level, hlevel, hmem⟩ := List.mem_flatMap.mp hs
        rw [hsteps.grouped.holds level hlevel] at hmem
        exact (mem_ofLevel.mp (mem_byNumber.mp hmem)).1
    · refine iff_of_false (fun hpresent => ?_) hnothing
      have hdangling : Dangles (byNumber (ofLevel sorted 0)) res d' := by
        by_cases hchosen : chosen = []
        · subst hchosen
          obtain ⟨rfl, hsub⟩ := recoverLevels_eq_ok hsteps.checked hsteps.recovery
          apply addLevels_dangles (fun s hs => ?_) (fun hnil => absurd ⟨rfl, hnil⟩ hnothing)
            hsteps.added
          obtain ⟨level, hlevel, hmem⟩ := hsub s hs
          exact List.mem_append_right _ (List.mem_flatMap.mpr ⟨level, hlevel, hmem⟩)
        · have hsub : ∀ s ∈ chosen, s ∈ byNumber (ofLevel sorted 0) ++
              ([] : List Sst.PartitionedLevel).flatMap Sst.PartitionedLevel.segments := fun s hs =>
            List.mem_append_left _ (selectForMerge_subset hsteps.choice s hs)
          obtain ⟨hselected, hdangles⟩ := recoverLevels_dangles hsub
            (fun hnil => absurd hnil hchosen) hsteps.recovery
          exact addLevels_dangles hselected hdangles hsteps.added
      obtain ⟨s, hs, hgone⟩ := hdangling
      exact hgone (hpresent s hs)

end

/-! ## A file of level zero -/

/-- INTERNAL: the file of a segment on level zero. -/
def zeroFiles : Dir := dirHolding [smallZero] (by decide)

/-- INTERNAL: it is complete. -/
theorem zeroFiles_complete : CompleteFiles zeroFiles := by
  intro name hname
  cases List.mem_singleton.mp hname
  exact ⟨smallZero, by decide⟩

/-- INTERNAL: the segment of level zero in level one. -/
def smallDown : Sst.Segment :=
  ⟨segmentBytes [⟨"a", some "v", 2⟩] [⟨"a", 0⟩], "0000000100000001.sst", ⟨[⟨"a", 0⟩], 13⟩, 2, 52, 23,
    1, 1, "a", "a"⟩

/-- INTERNAL: a restart with this target of level zero. -/
def smallRestart (target : ℕ) : EStateM Fault Dir Sst.LevelContainer :=
  Sst.LevelContainer.fromDir target 3 1 (Sst.mergeLevels frontOrders 9) 2

/-- A restart with one segment within the target, or over it. -/
theorem restart_leaves_files_small : ∃ c d', (smallRestart 40).run zeroFiles = .ok c d' ∧
    (AllPresent c d' ↔ NoLevelOver 40 3 (segmentsIn zeroFiles)) := by
  have hrun : (smallRestart 40).run zeroFiles = .ok ⟨⟨[smallZero], 40⟩, []⟩ _ :=
    run_of_result (by decide +kernel)
  exact ⟨_, _, hrun, restart_leaves_files_iff zeroFiles_complete hrun⟩

/-- The segment of level zero is over the target of 20 bytes. It is merged into level one, its file
is removed, and level zero still lists it.
SOURCE: level.rs:193-196, 211-214, 219-221 -/
theorem merged_segment_dangles :
    ¬∀ (t f sparsity limit fuel : ℕ)
      (orders : Sst.PartitionedLevel → List Sst.Segment → ℕ → Sst.IterationOrder) (dir d' : Dir)
      (c : Sst.LevelContainer), CompleteFiles dir →
      (Sst.LevelContainer.fromDir t f sparsity (Sst.mergeLevels orders limit) fuel).run dir =
        .ok c d' → AllPresent c d' := by
  intro hall
  have hrun : (smallRestart 20).run zeroFiles =
      .ok ⟨⟨[smallZero], 20⟩, [⟨[smallDown], 60, 1, 1⟩]⟩ _ := run_of_result (by decide +kernel)
  have hpresent := hall _ _ _ _ _ _ _ _ _ zeroFiles_complete hrun
  have hnames : (dirAfter (smallRestart 20) zeroFiles).names = ["0000000100000001.sst"] := by
    decide +kernel
  have hmem := hpresent smallZero (List.mem_cons_self ..)
  rw [hnames] at hmem
  exact absurd (List.mem_singleton.mp hmem) (by decide)

end Rkvs.Analysis

import Rkvs.Analysis.CrashRecovery

/-!
# A restart after a crash

What a restart finds is what was found before if no segment that the merge has read hides an entry
of level zero of which the own segment is gone.
-/

set_option autoImplicit false

namespace Rkvs.Analysis

open Rkvs.Library Rkvs.Model Rkvs.Interface

section
variable {c : Sst.LevelContainer} {level : Sst.PartitionedLevel}
  {mergeAndWrite : Sst.PartitionedLevel → List Sst.Segment → EStateM Fault Dir (List Sst.Segment)}
  {chosen new deleted : List Sst.Segment} {dir dir₁ dir₂ : Dir}
  {levelZeroTargetSize levelSizeFactor : ℕ} (hgood : GoodContainer c)
  (hnumbers : NumberedLevels c) (hfiles : FilesOf c dir)
  (hwithin : WithinTargets c levelZeroTargetSize levelSizeFactor)
  (hlevel : level ∈ c.partitionedLevels) (hchosen : ∀ s ∈ chosen, s ∈ c.levelZero.segments)
  (hmerged : MergedInto mergeAndWrite level chosen new deleted dir dir₁)
  (hgone : SomeGone deleted dir₁ dir₂)
include hgood hnumbers hfiles hwithin hlevel hchosen hmerged hgone

/-- INTERNAL: where every entry of level zero is still answered, everything is found. -/
theorem restartKeeps_of_stillAnswered (h : StillAnswered c level new dir₂) :
    RestartKeeps c dir₂ levelZeroTargetSize levelSizeFactor := by
  intro merge hmerge sparsity fuel c' dir' hrun key
  obtain ⟨opened, d, hopen, hnodup, hmem⟩ :=
    crash_opened hnumbers hfiles hlevel hchosen hmerged hgone
  have hzero : fileSizes (ofLevel opened 0) ≤ levelZeroTargetSize := by
    refine (fileSizes_le (hnodup.filter _) fun s hs => ?_).trans hwithin.levelZero
    exact (mem_remaining.mp ((mem_crash_levelZero hnumbers hlevel hmerged hmem).mp hs)).1
  obtain ⟨sorted, levels, added, rfl, hperm, hgrouped, hadded⟩ := fromDir_eq_ok hmerge hopen
    (crash_whole hgood hmerged hmem) hwithin.target_lt hzero hrun
  have hsorted : ∀ s, s ∈ sorted ↔ s ∈ new ∨ s ∈ remaining dir₂ (allSegments c) :=
    fun s => hperm.mem_iff.trans (hmem s)
  obtain ⟨r', hr', hnewest', hget'⟩ := crash_get hgood hnumbers hfiles hlevel hchosen hmerged hgone
    (hperm.nodup_iff.mpr hnodup) hsorted hgrouped (fun l hl => (hadded l hl).1) key
  obtain ⟨r, hr, hnewest, hget⟩ := container_get hgood key
  rw [hget', hget]
  cases r with
  | some e =>
    obtain hzeroGet | ⟨hzeroGet, hanswer⟩ := h key e hr
    · cases hr'.symm.trans hzeroGet
      rfl
    · cases hr'.symm.trans hzeroGet
      rw [hanswer]
      rfl
  | none =>
    have hnone : r' = none := by
      cases r' with
      | none => rfl
      | some e =>
        obtain ⟨s, hs, hes⟩ := mem_allEntries.mp hnewest'.1
        exact absurd hnewest'.2.1
          (hnewest e (mem_allEntries.mpr ⟨s, (mem_remaining.mp hs).1, hes⟩))
    rw [hnone, levelsAnswer_absent hgood hnumbers hfiles hlevel hchosen hmerged hgone hnewest]
    cases hlookup : lookupLevels key c.partitionedLevels with
    | some e => rfl
    | none =>
      -- nothing that is on disk has the key, so no level that was added has it
      have hlevels : ∀ m ∈ c.partitionedLevels, ∀ e ∈ allEntries m.segments, e.key ≠ key := by
        intro m hm e he hkey
        have hm := List.findSome?_eq_none_iff.mp hlookup m hm
        exact List.find?_eq_none.mp hm e he (decide_eq_true hkey)
      have habsent : lookupLevels key added = none := by
        refine List.findSome?_eq_none_iff.mpr fun l hl => List.find?_eq_none.mpr fun e he hkey => ?_
        have hkey := of_decide_eq_true hkey
        obtain ⟨m, hm, hem⟩ := (hadded l hl).2 e he
        obtain ⟨s, hs, hes⟩ := mem_allEntries.mp hem
        rw [hgrouped.holds m hm] at hs
        obtain hs | hs := (hsorted s).mp (mem_ofLevel.mp (mem_byNumber.mp hs)).1
        · have hread := merged_key hmerged.written.merged (mem_allEntries.mpr ⟨s, hs, hes⟩)
          exact hlevels level hlevel e (mem_level_of_deleted hchosen hmerged hnewest hread hkey) hkey
        · obtain hs | hs := List.mem_append.mp (mem_remaining.mp hs).1
          · exact hnewest e (mem_allEntries.mpr ⟨s, hs, hes⟩) hkey
          · obtain ⟨m', hm', hs⟩ := List.mem_flatMap.mp hs
            exact hlevels m' hm' e (mem_allEntries.mpr ⟨s, hs, hes⟩) hkey
      rw [habsent]
      rfl

/-- INTERNAL: where the level is within its target with what was written, a restart returns. -/
theorem stillAnswered_of_restartKeeps {targetSize : ℕ}
    (htarget : Sst.LevelContainer.levelTargetSize levelZeroTargetSize levelSizeFactor
      level.levelNumber = .ok targetSize)
    (hroom : fileSizes (remaining dir₂ level.segments ++ new) ≤ targetSize)
    (h : RestartKeeps c dir₂ levelZeroTargetSize levelSizeFactor) :
    StillAnswered c level new dir₂ := by
  intro key e hzeroGet
  obtain ⟨opened, d, hopen, hnodup, hmem⟩ :=
    crash_opened hnumbers hfiles hlevel hchosen hmerged hgone
  have hzero : fileSizes (ofLevel opened 0) ≤ levelZeroTargetSize := by
    refine (fileSizes_le (hnodup.filter _) fun s hs => ?_).trans hwithin.levelZero
    exact (mem_remaining.mp ((mem_crash_levelZero hnumbers hlevel hmerged hmem).mp hs)).1
  have htargets : ∀ s ∈ opened, 0 < s.levelNumber → ∃ targetSize,
      Sst.LevelContainer.levelTargetSize levelZeroTargetSize levelSizeFactor s.levelNumber =
        .ok targetSize ∧ fileSizes (ofLevel opened s.levelNumber) ≤ targetSize := by
    intro s hs hpos
    by_cases hsame : s.levelNumber = level.levelNumber
    · rw [hsame]
      refine ⟨targetSize, htarget, (fileSizes_le (hnodup.filter _) fun t ht => ?_).trans hroom⟩
      exact List.mem_append.mpr ((mem_crash_level hnumbers hlevel hmerged hmem).mp ht)
    · have hother := mem_crash_other hnumbers hfiles hlevel hchosen hmerged hgone hmem
      obtain hs | hs := List.mem_append.mp ((hother s ⟨hpos.ne', hsame⟩).mp hs)
      · exact absurd (hnumbers.levelZero s hs) hpos.ne'
      · obtain ⟨m, hm, hsm⟩ := List.mem_flatMap.mp hs
        have hnumber := hnumbers.levels m hm s hsm
        obtain ⟨size, hsize, hle⟩ := hwithin.levels m hm (List.ne_nil_of_mem hsm)
        rw [hnumber]
        refine ⟨size, hsize, (fileSizes_le (hnodup.filter _) fun t ht => ?_).trans hle⟩
        obtain ⟨ht, htnumber⟩ := mem_ofLevel.mp ht
        refine mem_of_levelNumber hnumbers hm ((hother t ?_).mp ht) htnumber
        rw [htnumber, ← hnumber]
        exact ⟨hpos.ne', hsame⟩
  obtain ⟨sorted, levels, hrun, hperm, hgrouped⟩ :=
    fromDir_run 1 (fun _ _ => throw .panic) 0 hopen htargets hwithin.target_lt hzero
  have hnever : MergesNewest fun _ _ => throw .panic := by
    intro _ _ _ _ _ _ _ _ hrun
    cases hrun
  have hsorted : ∀ s, s ∈ sorted ↔ s ∈ new ∨ s ∈ remaining dir₂ (allSegments c) :=
    fun s => hperm.mem_iff.trans (hmem s)
  have hnoLevel : ∀ l ∈ ([] : List Sst.PartitionedLevel), GoodLevel l :=
    fun l hl => absurd hl List.not_mem_nil
  obtain ⟨r', hr', -, hget'⟩ := crash_get hgood hnumbers hfiles hlevel hchosen hmerged hgone
    (hperm.nodup_iff.mpr hnodup) hsorted hgrouped hnoLevel key
  obtain ⟨r, hr, -, hget⟩ := container_get hgood key
  cases hr.symm.trans hzeroGet
  have hsame := h _ hnever 1 0 _ _ hrun key
  rw [hget] at hsame
  rw [List.append_nil] at hget'
  have hanswer := Except.ok.inj (hget'.symm.trans hsame)
  cases r' with
  | some e' =>
    cases hanswer
    exact Or.inl hr'
  | none =>
    refine Or.inr ⟨hr', ?_⟩
    cases hlevels : levelsAnswer c level new dir₂ key with
    | some e' =>
      rw [hlevels] at hanswer
      exact hanswer
    | none =>
      rw [hlevels] at hanswer
      cases hanswer

end

/-! ## A level behind all others -/

/-- The container with one more level behind the others. -/
def withLevel (c : Sst.LevelContainer) (level : Sst.PartitionedLevel) : Sst.LevelContainer :=
  { c with partitionedLevels := c.partitionedLevels ++ [level] }

section
variable {c : Sst.LevelContainer} {level : Sst.PartitionedLevel} (hempty : level.segments = [])
  (hbehind : ∀ m ∈ c.partitionedLevels, m.levelNumber < level.levelNumber)

/-- INTERNAL: the levels with one more. -/
theorem mem_withLevel {m : Sst.PartitionedLevel} :
    m ∈ (withLevel c level).partitionedLevels ↔ m ∈ c.partitionedLevels ∨ m = level := by
  unfold withLevel
  rw [List.mem_append, List.mem_singleton]

include hempty

/-- INTERNAL: one more level that reads can trust. -/
theorem withLevel_good (hgood : GoodContainer c) : GoodContainer (withLevel c level) := by
  refine ⟨hgood.levelZero, fun m hm => ?_⟩
  obtain hm | rfl := mem_withLevel.mp hm
  · exact hgood.levels m hm
  · exact ⟨hempty ▸ List.Pairwise.nil, fun s hs => absurd (hempty ▸ hs) List.not_mem_nil⟩

/-- INTERNAL: an empty level adds no segment. -/
theorem allSegments_withLevel : allSegments (withLevel c level) = allSegments c := by
  unfold allSegments withLevel
  rw [List.flatMap_append, List.flatMap_singleton, hempty, List.append_nil]

/-- INTERNAL: a level with a number of its own. -/
theorem withLevel_numbers (hpos : 0 < level.levelNumber)
    (hbehind : ∀ m ∈ c.partitionedLevels, m.levelNumber < level.levelNumber)
    (hnumbers : NumberedLevels c) : NumberedLevels (withLevel c level) where
  levelZero := hnumbers.levelZero
  distinct := hnumbers.distinct
  positive m hm := by
    obtain hm | rfl := mem_withLevel.mp hm
    · exact hnumbers.positive m hm
    · exact hpos
  levels m hm s hs := by
    obtain hm | rfl := mem_withLevel.mp hm
    · exact hnumbers.levels m hm s hs
    · exact absurd (hempty ▸ hs) List.not_mem_nil
  ascending := by
    refine List.pairwise_append.mpr ⟨hnumbers.ascending, List.pairwise_singleton .., ?_⟩
    intro m hm m' hm'
    rw [List.mem_singleton.mp hm']
    exact hbehind m hm

/-- INTERNAL: an empty level does not change what is read. -/
theorem withLevel_get (hgood : GoodContainer c) (key : String) :
    (withLevel c level).get key = c.get key := by
  obtain ⟨r, hr, -, hget⟩ := container_get hgood key
  obtain ⟨r', hr', -, hget'⟩ := container_get (withLevel_good hempty hgood) key
  cases hr.symm.trans hr'
  have hnone : lookupLevels key [level] = none := by
    unfold lookupLevels
    rw [List.findSome?_singleton, hempty]
    rfl
  rw [hget, hget']
  unfold withLevel
  rw [lookupLevels_append, hnone, Option.or_none]

end

/-- INTERNAL: a level behind all others is not in front of or behind itself. -/
theorem stillAnswered_withLevel {c : Sst.LevelContainer} {level : Sst.PartitionedLevel}
    {new : List Sst.Segment} {dir : Dir} :
    StillAnswered (withLevel c level) level new dir ↔ StillAnswered c level new dir := by
  have hanswer : ∀ key, levelsAnswer (withLevel c level) level new dir key =
      levelsAnswer c level new dir key := by
    intro key
    unfold levelsAnswer withLevel
    simp only [List.filter_append, List.filter_cons, List.filter_nil, lt_irrefl, decide_false,
      Bool.false_eq_true, if_false, List.append_nil]
  unfold StillAnswered
  simp only [hanswer]
  rfl

/-! ## Two versions of a key -/

/-- INTERNAL: a version on level zero. -/
def newerSegment : Sst.Segment := versionOf "0000000000000001.sst" 0 1 2

/-- INTERNAL: an older version on level one. -/
def olderSegment : Sst.Segment := versionOf "0000000100000001.sst" 1 1 1

/-- INTERNAL: the newer version, merged into level one. -/
def mergedSegment : Sst.Segment := versionOf "0000000100000002.sst" 1 2 2

/-- INTERNAL: level one before the merge. -/
def olderLevel : Sst.PartitionedLevel := ⟨[olderSegment], 1000, 1, 1⟩

/-- INTERNAL: the levels before the merge. -/
def twoVersions : Sst.LevelContainer := ⟨⟨[newerSegment], 1000⟩, [olderLevel]⟩

/-- INTERNAL: their files. -/
def twoVersionsDir : Dir where
  files := [(newerSegment.filepath, newerSegment.file), (olderSegment.filepath, olderSegment.file)]
  distinct := by decide
  faults := []

/-- It writes the newer version. -/
def writeNewer (_ : Sst.PartitionedLevel) (_ : List Sst.Segment) :
    EStateM Fault Dir (List Sst.Segment) := do
  modify fun dir => dir.put mergedSegment.filepath mergedSegment.file
  return [mergedSegment]

/-- INTERNAL: the files when the merge has written its own. -/
def mergedDir : Dir := twoVersionsDir.put mergedSegment.filepath mergedSegment.file

/-- INTERNAL: reads can trust the levels. -/
theorem twoVersions_good : GoodContainer twoVersions := by
  refine ⟨fun s hs => ?_, fun l hl => ?_⟩
  · rw [List.mem_singleton.mp hs]
    exact versionOf_whole (by norm_num)
  · rw [List.mem_singleton.mp hl]
    refine ⟨List.pairwise_singleton .., fun s hs => ?_⟩
    rw [List.mem_singleton.mp hs]
    exact versionOf_whole (by norm_num)

/-- INTERNAL: their segments have numbers of their own. -/
theorem twoVersions_numbers : NumberedLevels twoVersions where
  levelZero s hs := by
    rw [List.mem_singleton.mp hs]
    rfl
  distinct := List.nodup_singleton _
  positive l hl := by
    rw [List.mem_singleton.mp hl]
    decide
  levels l hl s hs := by
    rw [List.mem_singleton.mp hl] at hs ⊢
    rw [List.mem_singleton.mp hs]
    rfl
  ascending := List.pairwise_singleton ..

/-- INTERNAL: their files are the ones in the directory. -/
theorem twoVersions_files : FilesOf twoVersions twoVersionsDir := by
  refine ⟨fun s hs => ?_, fun name hname => Or.inl ?_⟩
  · obtain rfl | rfl := List.mem_pair.mp hs <;> decide
  · obtain rfl | rfl := List.mem_pair.mp hname
    · exact ⟨newerSegment, List.mem_pair.mpr (Or.inl rfl), rfl⟩
    · exact ⟨olderSegment, List.mem_pair.mpr (Or.inr rfl), rfl⟩

/-- INTERNAL: they are within their targets. -/
theorem twoVersions_within : WithinTargets twoVersions 1000 10 := by
  refine ⟨by norm_num, by decide, fun l hl _ => ?_⟩
  rw [List.mem_singleton.mp hl]
  exact ⟨10000, by decide, by decide⟩

/-- INTERNAL: the merge of the newer version into level one. -/
theorem twoVersions_merged : MergedInto writeNewer olderLevel [newerSegment] [mergedSegment]
    [olderSegment, newerSegment] twoVersionsDir mergedDir := by
  have htouched : touchedBy olderLevel [newerSegment] = [olderSegment] := by decide
  obtain ⟨level', hrun, -⟩ := @merge_run_ok olderLevel [newerSegment] writeNewer twoVersionsDir
    mergedDir [mergedSegment] rfl
  rw [htouched] at hrun
  have hout : allEntries [mergedSegment] = [⟨"a", some "v", 2⟩] := by
    rw [allEntries_singleton]
    exact entriesOf_eq (versionOf_stored (by norm_num))
  have hins : allEntries [olderSegment, newerSegment] =
      [⟨"a", some "v", 1⟩, ⟨"a", some "v", 2⟩] := by
    have holder : entriesOf olderSegment = [⟨"a", some "v", 1⟩] :=
      entriesOf_eq (versionOf_stored (by norm_num))
    have hnewer : entriesOf newerSegment = [⟨"a", some "v", 2⟩] :=
      entriesOf_eq (versionOf_stored (by norm_num))
    unfold allEntries
    rw [List.flatMap_cons, List.flatMap_singleton, holder, hnewer, List.singleton_append]
  refine ⟨⟨level', hrun⟩, rfl, ⟨?_, ?_, ?_⟩, ?_, ?_, ?_, ?_, ?_⟩
  · intro s hs
    rw [List.mem_singleton.mp hs]
    exact versionOf_whole (by norm_num)
  · rw [hout]
    exact List.pairwise_singleton ..
  · intro key
    rw [hins, hout]
    by_cases hkey : "a" = key
    · subst hkey
      refine ⟨List.mem_cons_of_mem _ (List.mem_singleton_self _), rfl, fun e he _ => ?_⟩
      obtain rfl | rfl := List.mem_pair.mp he <;> decide
    · have hnone : entryFor [⟨"a", some "v", 2⟩] key = none :=
        List.find?_eq_none.mpr fun e he => by
          rw [List.mem_singleton.mp he]
          simpa using hkey
      rw [hnone]
      intro e he
      obtain rfl | rfl := List.mem_pair.mp he <;> exact hkey
  · intro s hs
    rw [List.mem_singleton.mp hs]
    rfl
  · intro s hs
    rw [List.mem_singleton.mp hs]
    decide
  · intro s hs
    rw [List.mem_singleton.mp hs]
    decide
  · intro name
    unfold mergedDir
    rw [Dir.mem_names_put, or_comm]
    refine or_congr_right ⟨fun h => ⟨mergedSegment, List.mem_singleton_self _, h.symm⟩, ?_⟩
    rintro ⟨s, hs, rfl⟩
    rw [List.mem_singleton.mp hs]
  · intro name hname
    exact Dir.content_put_of_ne (hname mergedSegment (List.mem_singleton_self _)).symm

/-- After a crash a restart that returns finds what was found before if every entry of level zero
is still answered; where the files of the level are within its target, only then.
SOURCE: level.rs:81-222, 346-351, 415-426; compaction.rs:172-220 -/
theorem crash_keeps_iff {c : Sst.LevelContainer} {level : Sst.PartitionedLevel}
    {mergeAndWrite : Sst.PartitionedLevel → List Sst.Segment → EStateM Fault Dir (List Sst.Segment)}
    {chosen new deleted : List Sst.Segment} {dir dir₁ dir₂ : Dir}
    {levelZeroTargetSize levelSizeFactor : ℕ} (hgood : GoodContainer c)
    (hnumbers : NumberedLevels c) (hfiles : FilesOf c dir)
    (hwithin : WithinTargets c levelZeroTargetSize levelSizeFactor) (hinto : IntoLevel c level)
    (hchosen : ∀ s ∈ chosen, s ∈ c.levelZero.segments)
    (hmerged : MergedInto mergeAndWrite level chosen new deleted dir dir₁)
    (hgone : SomeGone deleted dir₁ dir₂) :
    (StillAnswered c level new dir₂ →
      RestartKeeps c dir₂ levelZeroTargetSize levelSizeFactor) ∧
    ∀ targetSize, Sst.LevelContainer.levelTargetSize levelZeroTargetSize levelSizeFactor
        level.levelNumber = .ok targetSize →
      fileSizes (remaining dir₂ level.segments ++ new) ≤ targetSize →
      RestartKeeps c dir₂ levelZeroTargetSize levelSizeFactor → StillAnswered c level new dir₂ := by
  obtain hlevel | ⟨hempty, hpos, hbehind⟩ := hinto
  · exact ⟨restartKeeps_of_stillAnswered hgood hnumbers hfiles hwithin hlevel hchosen hmerged hgone,
      fun targetSize => stillAnswered_of_restartKeeps hgood hnumbers hfiles hwithin hlevel hchosen
        hmerged hgone⟩
  · -- the new level is one of a container that answers alike
    have hsegments : allSegments (withLevel c level) = allSegments c :=
      allSegments_withLevel hempty
    have hgood' := withLevel_good hempty hgood
    have hnumbers' := withLevel_numbers hempty hpos hbehind hnumbers
    have hfiles' : FilesOf (withLevel c level) dir :=
      ⟨hsegments ▸ hfiles.opened, hsegments ▸ hfiles.others⟩
    have hwithin' : WithinTargets (withLevel c level) levelZeroTargetSize levelSizeFactor := by
      refine ⟨hwithin.target_lt, hwithin.levelZero, fun m hm hne => ?_⟩
      obtain hm | rfl := mem_withLevel.mp hm
      · exact hwithin.levels m hm hne
      · exact absurd hempty hne
    have hlevel' : level ∈ (withLevel c level).partitionedLevels := mem_withLevel.mpr (Or.inr rfl)
    have hkeeps : RestartKeeps (withLevel c level) dir₂ levelZeroTargetSize levelSizeFactor ↔
        RestartKeeps c dir₂ levelZeroTargetSize levelSizeFactor := by
      unfold RestartKeeps
      simp only [withLevel_get hempty hgood]
    rw [← stillAnswered_withLevel, ← hkeeps]
    exact ⟨restartKeeps_of_stillAnswered hgood' hnumbers' hfiles' hwithin' hlevel' hchosen hmerged
      hgone, fun targetSize => stillAnswered_of_restartKeeps hgood' hnumbers' hfiles' hwithin'
        hlevel' hchosen hmerged hgone⟩

/-- The segment of level zero is gone and the older one is still there. -/
theorem crash_hides_newer :
    GoodContainer twoVersions ∧ NumberedLevels twoVersions ∧ FilesOf twoVersions twoVersionsDir ∧
      WithinTargets twoVersions 1000 10 ∧
      MergedInto writeNewer olderLevel [newerSegment] [mergedSegment]
        [olderSegment, newerSegment] twoVersionsDir mergedDir ∧
      SomeGone [olderSegment, newerSegment] mergedDir
        (mergedDir.removeFile newerSegment.filepath) ∧
      ¬RestartKeeps twoVersions (mergedDir.removeFile newerSegment.filepath) 1000 10 := by
  have hgone : SomeGone [olderSegment, newerSegment] mergedDir
      (mergedDir.removeFile newerSegment.filepath) := by
    refine ⟨fun name hname => (Dir.mem_names_removeFile.mp hname).1, fun name hname hnot => ?_,
      fun name hname => Dir.content_removeFile_of_ne (Dir.mem_names_removeFile.mp hname).2⟩
    refine ⟨newerSegment, List.mem_pair.mpr (Or.inr rfl), ?_⟩
    by_contra hne
    exact hnot (Dir.mem_names_removeFile.mpr ⟨hname, fun heq => hne heq.symm⟩)
  refine ⟨twoVersions_good, twoVersions_numbers, twoVersions_files, twoVersions_within,
    twoVersions_merged, hgone, fun hkeeps => ?_⟩
  have hchosen : ∀ s ∈ [newerSegment], s ∈ twoVersions.levelZero.segments := fun s hs => hs
  have htarget : Sst.LevelContainer.levelTargetSize 1000 10 olderLevel.levelNumber = .ok 10000 := by
    decide
  have hanswered := stillAnswered_of_restartKeeps twoVersions_good twoVersions_numbers
    twoVersions_files twoVersions_within (List.mem_singleton_self _) hchosen twoVersions_merged hgone
    htarget (by decide) hkeeps
  have hzero : twoVersions.levelZero.get "a" = .ok (some ⟨"a", some "v", 2⟩) := by decide
  obtain hzero | ⟨-, hlevels⟩ := hanswered "a" _ hzero
  · exact absurd hzero (by decide +kernel)
  · exact absurd hlevels (by decide)

/-- Where nothing is gone level zero answers. -/
theorem crash_keeps_all :
    RestartKeeps twoVersions mergedDir 1000 10 := by
  have hgone : SomeGone [olderSegment, newerSegment] mergedDir mergedDir :=
    ⟨fun name hname => hname, fun name hname hnot => absurd hname hnot, fun name _ => rfl⟩
  have hchosen : ∀ s ∈ [newerSegment], s ∈ twoVersions.levelZero.segments := fun s hs => hs
  refine (crash_keeps_iff twoVersions_good twoVersions_numbers twoVersions_files twoVersions_within
    (Or.inl (List.mem_singleton_self _)) hchosen twoVersions_merged hgone).1 fun key e hget => ?_
  have hsame : remainingLevelZero twoVersions mergedDir = twoVersions.levelZero := by
    decide +kernel
  exact Or.inl (hsame ▸ hget)

end Rkvs.Analysis

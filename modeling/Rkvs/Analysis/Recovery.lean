import Rkvs.Analysis.CompactionLookups
import Rkvs.Analysis.RecoveryGrouping
import Rkvs.Library.FirstFound
import Mathlib.Algebra.Order.BigOperators.Group.List

/-!
# A restart rebuilds the container

A directory that holds the files of a container, none of whose levels is over its target, gives a
container that answers as the first one did.
-/

set_option autoImplicit false

namespace Rkvs.Analysis

open Rkvs.Library Rkvs.Model Rkvs.Interface

/-! ## Sizes -/

/-- INTERNAL: the sum from a starting value. -/
theorem foldlM_size {segments : List Sst.Segment} {size : ℕ}
    (h : size + fileSizes segments < 2 ^ 64) :
    segments.foldlM (fun size segment => checkedAdd 64 size segment.size) size =
      .ok (size + fileSizes segments) := by
  induction segments generalizing size with
  | nil => rfl
  | cons s segments ih =>
    have hsum : fileSizes (s :: segments) = s.size + fileSizes segments := List.sum_cons
    rw [hsum] at h ⊢
    rw [List.foldlM_cons, checkedAdd_ok (by omega), exec_ok_bind, ih (by omega), Nat.add_assoc]

theorem totalSize_ok {segments : List Sst.Segment} (h : fileSizes segments < 2 ^ 64) :
    Sst.totalSize segments = .ok (fileSizes segments) := by
  have hsum := @foldlM_size segments 0 (by rwa [Nat.zero_add])
  rwa [Nat.zero_add] at hsum

/-- INTERNAL: some of the files are not larger than all of them. -/
theorem fileSizes_le {segments others : List Sst.Segment} (hnodup : segments.Nodup)
    (hsub : ∀ s ∈ segments, s ∈ others) : fileSizes segments ≤ fileSizes others := by
  obtain ⟨inner, hperm, hinner⟩ := List.subperm_of_subset hnodup hsub
  calc fileSizes segments = fileSizes inner := ((hperm.map Sst.Segment.size).sum_eq).symm
    _ ≤ fileSizes others := (hinner.map Sst.Segment.size).sum_le_sum fun _ _ => Nat.zero_le _

theorem levelTargetSize_lt {levelZeroTargetSize levelSizeFactor n targetSize : ℕ}
    (h : Sst.LevelContainer.levelTargetSize levelZeroTargetSize levelSizeFactor n =
      .ok targetSize) : targetSize < 2 ^ 64 := by
  obtain ⟨product, -, hmul⟩ := exec_bind_eq_ok.mp h
  unfold checkedMul at hmul
  split at hmul
  · cases hmul
    assumption
  · cases hmul

/-- INTERNAL: no merge is asked for where all levels are within their targets.
SOURCE: level.rs:164-187 -/
theorem checkMerges_ok {levels : List Sst.PartitionedLevel}
    (h : ∀ level ∈ levels, level.targetSize < 2 ^ 64 ∧
      fileSizes level.segments ≤ level.targetSize) :
    Sst.LevelContainer.checkMerges levels = .ok () := by
  induction levels with
  | nil => rfl
  | cons level levels ih =>
    obtain ⟨hlt, hle⟩ := h level (List.mem_cons_self ..)
    have hexceeds : level.exceedsTargetSize = .ok false := by
      unfold Sst.PartitionedLevel.exceedsTargetSize Sst.exceeds
      rw [totalSize_ok (hle.trans_lt hlt), exec_ok_bind, decide_eq_false (Nat.not_lt.mpr hle)]
      rfl
    rw [Sst.LevelContainer.checkMerges, hexceeds, exec_ok_bind,
      if_neg fun hboth => Bool.false_ne_true hboth.1]
    exact ih fun m hm => h m (List.mem_cons_of_mem _ hm)

/-- INTERNAL: and none is made.
SOURCE: level.rs:189-203 -/
theorem recoverLevels_run (merge : Sst.Merge) {levels recovered : List Sst.PartitionedLevel}
    (h : ∀ level ∈ levels, level.targetSize < 2 ^ 64 ∧
      fileSizes level.segments ≤ level.targetSize) (d : Dir) :
    (Sst.LevelContainer.recoverLevels merge levels [] recovered).run d =
      .ok (recovered ++ levels, []) d := by
  induction levels generalizing recovered with
  | nil =>
    rw [Sst.LevelContainer.recoverLevels, List.append_nil]
    rfl
  | cons level levels ih =>
    obtain ⟨hlt, hle⟩ := h level (List.mem_cons_self ..)
    have hnone : level.segmentsToMerge = .ok [] :=
      selectForMerge_within (totalSize_ok (hle.trans_lt hlt)) hle
    rw [Sst.LevelContainer.recoverLevels]
    simp only [if_pos]
    rw [run_bind_ok (EStateM.run_pure ..), hnone, run_bind_ok (run_liftExec_ok ..),
      ih fun m hm => h m (List.mem_cons_of_mem _ hm), List.append_assoc, List.singleton_append]

/-! ## Lookups -/

/-- INTERNAL: levels that hold the same entries answer alike. -/
theorem entryFor_congr {es fs : List SsTableEntry} (hes : (es.map SsTableEntry.key).Nodup)
    (hfs : (fs.map SsTableEntry.key).Nodup) (h : ∀ e, e ∈ es ↔ e ∈ fs) (key : String) :
    entryFor es key = entryFor fs key := by
  have hsame : ∀ e, entryFor es key = some e ↔ entryFor fs key = some e := by
    intro e
    constructor
    · intro hfound
      obtain ⟨hmem, rfl⟩ := mem_of_entryFor hfound
      exact entryFor_of_mem hfs ((h e).mp hmem)
    · intro hfound
      obtain ⟨hmem, rfl⟩ := mem_of_entryFor hfound
      exact entryFor_of_mem hes ((h e).mpr hmem)
  exact Option.ext hsame

/-- INTERNAL: where no two entries have one sequence number the newest is unique. -/
theorem newest_unique {es fs : List SsTableEntry}
    (hdistinct : (es.map SsTableEntry.sequenceNumber).Nodup) (h : ∀ e, e ∈ es ↔ e ∈ fs)
    {key : String} {r r' : Option SsTableEntry} (hr : Newest es key r) (hr' : Newest fs key r') :
    r = r' := by
  have hr' : Newest es key r' := hr'.congr fun e _ => (h e).symm
  refine IsNewest.unique (fun x hx y hy _ _ hseq => ?_) hr hr'
  exact List.inj_on_of_nodup_map hdistinct hx hy hseq

/-- INTERNAL: some segments of a level that is partitioned. -/
theorem partitioned_of_subset {segments others : List Sst.Segment} (h : Partitioned others)
    (hnodup : segments.Nodup) (hsub : ∀ s ∈ segments, s ∈ others) : Partitioned segments := by
  have : Std.Symm fun s t : Sst.Segment => ¬s.overlaps t := ⟨fun _ _ => overlaps_symm⟩
  exact hnodup.pairwise_of_forall_ne fun s hs t ht hne => h.forall (hsub s hs) (hsub t ht) hne

section
variable {c : Sst.LevelContainer} {opened : List Sst.Segment} {levels : List Sst.PartitionedLevel}
  {levelZeroTargetSize levelSizeFactor : ℕ} {p : ℕ → Prop} (hgood : GoodContainer c)
  (hnumbers : NumberedLevels c) (hnodup : opened.Nodup)
  (hsame : ∀ s, p s.levelNumber → (s ∈ opened ↔ s ∈ allSegments c))
  (hgrouped : Grouped levelZeroTargetSize levelSizeFactor opened levels)

include hnumbers

/-- INTERNAL: the segments of the container with the number of a level are those of the level. -/
theorem mem_of_levelNumber {m : Sst.PartitionedLevel} (hm : m ∈ c.partitionedLevels)
    {s : Sst.Segment} (hs : s ∈ allSegments c) (hnumber : s.levelNumber = m.levelNumber) :
    s ∈ m.segments := by
  obtain hs | hs := List.mem_append.mp hs
  · rw [hnumbers.levelZero s hs] at hnumber
    exact absurd hnumber (hnumbers.positive m hm).ne
  · obtain ⟨m', hm', hs⟩ := List.mem_flatMap.mp hs
    rw [hnumbers.levels m' hm' s hs] at hnumber
    have hnodup : (c.partitionedLevels.map Sst.PartitionedLevel.levelNumber).Nodup :=
      List.pairwise_map.mpr (hnumbers.ascending.imp Nat.ne_of_lt)
    rwa [← List.inj_on_of_nodup_map hnodup hm' hm hnumber]

/-- INTERNAL: those with the number of level zero are those of level zero. -/
theorem mem_levelZero_of_levelNumber {s : Sst.Segment} (hs : s ∈ allSegments c)
    (hzero : s.levelNumber = 0) : s ∈ c.levelZero.segments := by
  obtain hs | hs := List.mem_append.mp hs
  · exact hs
  · obtain ⟨m, hm, hs⟩ := List.mem_flatMap.mp hs
    rw [hnumbers.levels m hm s hs] at hzero
    exact absurd hzero (hnumbers.positive m hm).ne'

include hsame

/-- INTERNAL: the segments of level zero are those with its number. -/
theorem mem_levelZero_iff (hp : p 0) {s : Sst.Segment} :
    s ∈ byNumber (ofLevel opened 0) ↔ s ∈ c.levelZero.segments := by
  rw [mem_byNumber, mem_ofLevel]
  constructor
  · rintro ⟨hs, hzero⟩
    exact mem_levelZero_of_levelNumber hnumbers ((hsame s (hzero ▸ hp)).mp hs) hzero
  · intro hs
    have hzero := hnumbers.levelZero s hs
    exact ⟨(hsame s (hzero ▸ hp)).mpr (List.mem_append_left _ hs), hzero⟩

/-- INTERNAL: the segments with the number of a level of the container are those of the level. -/
theorem mem_level_iff {m : Sst.PartitionedLevel} (hm : m ∈ c.partitionedLevels)
    (hp : p m.levelNumber) {s : Sst.Segment} :
    s ∈ byNumber (ofLevel opened m.levelNumber) ↔ s ∈ m.segments := by
  rw [mem_byNumber, mem_ofLevel]
  constructor
  · rintro ⟨hs, hnumber⟩
    exact mem_of_levelNumber hnumbers hm ((hsame s (hnumber ▸ hp)).mp hs) hnumber
  · intro hs
    have hnumber := hnumbers.levels m hm s hs
    exact ⟨(hsame s (hnumber ▸ hp)).mpr
      (List.mem_append_right _ (List.mem_flatMap.mpr ⟨m, hm, hs⟩)), hnumber⟩

include hgrouped

/-- INTERNAL: every level that was rebuilt is a level of the container. -/
theorem exists_original {l : Sst.PartitionedLevel} (hl : l ∈ levels) (hp : p l.levelNumber) :
    ∃ m ∈ c.partitionedLevels, m.levelNumber = l.levelNumber ∧
      ∀ s, s ∈ l.segments ↔ s ∈ m.segments := by
  obtain ⟨s, hs, hnumber⟩ := hgrouped.inhabited l hl
  obtain hzero | hmem := List.mem_append.mp ((hsame s (hnumber ▸ hp)).mp hs)
  · rw [hnumbers.levelZero s hzero] at hnumber
    exact absurd hnumber (hgrouped.positive l hl).ne
  · obtain ⟨m, hm, hsm⟩ := List.mem_flatMap.mp hmem
    have hsameNumber : m.levelNumber = l.levelNumber := (hnumbers.levels m hm s hsm) ▸ hnumber
    refine ⟨m, hm, hsameNumber, fun t => ?_⟩
    rw [hgrouped.holds l hl, ← hsameNumber]
    exact mem_level_iff hnumbers hsame hm (hsameNumber ▸ hp)

/-- INTERNAL: every level with segments was rebuilt. -/
theorem exists_rebuilt {m : Sst.PartitionedLevel} (hm : m ∈ c.partitionedLevels)
    (hp : p m.levelNumber) (hne : m.segments ≠ []) :
    ∃ l ∈ levels, l.levelNumber = m.levelNumber ∧ ∀ s, s ∈ l.segments ↔ s ∈ m.segments := by
  obtain ⟨s, hs⟩ := List.exists_mem_of_ne_nil _ hne
  have hnumber := hnumbers.levels m hm s hs
  have hopened : s ∈ opened := (hsame s (hnumber ▸ hp)).mpr
    (List.mem_append_right _ (List.mem_flatMap.mpr ⟨m, hm, hs⟩))
  obtain ⟨l, hl, hsameNumber⟩ := hgrouped.complete s hopened (hnumber ▸ hnumbers.positive m hm)
  refine ⟨l, hl, hsameNumber.trans hnumber, fun t => ?_⟩
  rw [hgrouped.holds l hl, hsameNumber, hnumber]
  exact mem_level_iff hnumbers hsame hm hp

omit hnumbers hsame in
include hnodup in
theorem nodup_level {l : Sst.PartitionedLevel} (hl : l ∈ levels) : l.segments.Nodup := by
  rw [hgrouped.holds l hl]
  exact nodup_byNumber (hnodup.filter _)

include hgood hnodup

omit hnumbers hsame in
/-- INTERNAL: a level that was rebuilt answers as the one it was. -/
theorem goodLevel_of_same {l m : Sst.PartitionedLevel} (hl : l ∈ levels)
    (hm : m ∈ c.partitionedLevels) (hiff : ∀ s, s ∈ l.segments ↔ s ∈ m.segments) :
    GoodLevel l ∧ ∀ key, entryFor (allEntries l.segments) key =
      entryFor (allEntries m.segments) key := by
  have hgoodm := hgood.levels m hm
  have hgoodl : GoodLevel l :=
    ⟨partitioned_of_subset hgoodm.partitioned (nodup_level hnodup hgrouped hl)
      fun s hs => (hiff s).mp hs, fun s hs => hgoodm.whole s ((hiff s).mp hs)⟩
  refine ⟨hgoodl, entryFor_congr (nodup_keys hgoodl.partitioned hgoodl.whole)
    (nodup_keys hgoodm.partitioned hgoodm.whole) fun e => ?_⟩
  simp only [mem_allEntries, hiff]

/-- INTERNAL: the levels that were rebuilt are good. -/
theorem rebuilt_good {l : Sst.PartitionedLevel} (hl : l ∈ levels) (hp : p l.levelNumber) :
    GoodLevel l := by
  obtain ⟨m, hm, -, hiff⟩ := exists_original hnumbers hsame hgrouped hl hp
  exact (goodLevel_of_same hgood hnodup hgrouped hl hm hiff).1

/-- INTERNAL: the levels that were rebuilt answer as those of the container. -/
theorem rebuilt_lookupLevels [DecidablePred p] (key : String) :
    lookupLevels key (levels.filter fun l => p l.levelNumber) =
      lookupLevels key (c.partitionedLevels.filter fun m => p m.levelNumber) := by
  refine findSome?_congr_of_ascending (hgrouped.ascending.filter _) (hnumbers.ascending.filter _)
    (fun l hl _ => ?_) fun m hm hsome => ?_
  · obtain ⟨hl, hp⟩ := List.mem_filter.mp hl
    have hp := of_decide_eq_true hp
    obtain ⟨m, hm, hnumber, hiff⟩ := exists_original hnumbers hsame hgrouped hl hp
    exact ⟨m, List.mem_filter.mpr ⟨hm, decide_eq_true (hnumber ▸ hp)⟩, hnumber,
      ((goodLevel_of_same hgood hnodup hgrouped hl hm hiff).2 key).symm⟩
  · obtain ⟨hm, hp⟩ := List.mem_filter.mp hm
    have hp := of_decide_eq_true hp
    have hne : m.segments ≠ [] := by
      intro hempty
      rw [hempty] at hsome
      exact hsome rfl
    obtain ⟨l, hl, hnumber, hiff⟩ := exists_rebuilt hnumbers hsame hgrouped hm hp hne
    exact ⟨l, List.mem_filter.mpr ⟨hl, decide_eq_true (hnumber ▸ hp)⟩, hnumber,
      (goodLevel_of_same hgood hnodup hgrouped hl hm hiff).2 key⟩

end

/-- INTERNAL: a container that was rebuilt from all segments answers as the first one. -/
theorem rebuilt_get {c : Sst.LevelContainer} {opened segments : List Sst.Segment}
    {levels : List Sst.PartitionedLevel} {levelZeroTargetSize levelSizeFactor : ℕ}
    (hgood : GoodContainer c) (hnumbers : NumberedLevels c) (hnodup : opened.Nodup)
    (hsame : ∀ s, s ∈ opened ↔ s ∈ allSegments c)
    (hgrouped : Grouped levelZeroTargetSize levelSizeFactor opened levels)
    (hdistinct : DistinctSequenceNumbers c)
    (hsegments : ∀ s, s ∈ segments ↔ s ∈ c.levelZero.segments) (targetSize : ℕ) (key : String) :
    Sst.LevelContainer.get ⟨⟨segments, targetSize⟩, levels⟩ key = c.get key := by
  have hgood' : GoodContainer ⟨⟨segments, targetSize⟩, levels⟩ :=
    ⟨fun s hs => hgood.levelZero s ((hsegments s).mp hs),
      fun l hl => rebuilt_good (p := fun _ => True) hgood hnumbers hnodup (fun s _ => hsame s)
        hgrouped hl trivial⟩
  obtain ⟨r, -, hnewest, hget⟩ := container_get hgood key
  obtain ⟨r', -, hnewest', hget'⟩ := container_get hgood' key
  have hentries : ∀ e, e ∈ allEntries c.levelZero.segments ↔ e ∈ allEntries segments := by
    intro e
    simp only [mem_allEntries, hsegments]
  have hlookup := rebuilt_lookupLevels (p := fun _ => True) hgood hnumbers hnodup
    (fun s _ => hsame s) hgrouped key
  rw [decide_true, List.filter_true, List.filter_true] at hlookup
  rw [hget, hget', newest_unique hdistinct hentries hnewest hnewest', hlookup]

/-! ## The restart -/

/-- INTERNAL: the sum does not depend on the order of the files. -/
theorem fileSizes_perm {segments others : List Sst.Segment} (h : segments.Perm others) :
    fileSizes segments = fileSizes others := (h.map Sst.Segment.size).sum_eq

/-- INTERNAL: what a restart does with files that were opened, none of which is to be merged.
SOURCE: level.rs:111-222 -/
theorem fromDir_run {levelZeroTargetSize levelSizeFactor : ℕ} (sparsity : ℕ) (merge : Sst.Merge)
    (fuel : ℕ) {dir dir' : Dir} {opened : List Sst.Segment}
    (hopen : (Sst.LevelContainer.openSegments dir.names).run dir = .ok opened dir')
    (htargets : ∀ s ∈ opened, 0 < s.levelNumber → ∃ targetSize,
      Sst.LevelContainer.levelTargetSize levelZeroTargetSize levelSizeFactor s.levelNumber =
        .ok targetSize ∧ fileSizes (ofLevel opened s.levelNumber) ≤ targetSize)
    (hlt : levelZeroTargetSize < 2 ^ 64)
    (hzero : fileSizes (ofLevel opened 0) ≤ levelZeroTargetSize) :
    ∃ sorted levels, (Sst.LevelContainer.fromDir levelZeroTargetSize levelSizeFactor sparsity
        merge fuel).run dir =
          .ok ⟨⟨byNumber (ofLevel sorted 0), levelZeroTargetSize⟩, levels⟩ dir' ∧
      sorted.Perm opened ∧ Grouped levelZeroTargetSize levelSizeFactor sorted levels := by
  unfold Sst.LevelContainer.fromDir
  rw [run_bind_ok (EStateM.run_get dir), run_bind_ok hopen]
  by_cases hempty : opened = []
  · subst hempty
    refine ⟨[], [], ?_, List.Perm.refl _, grouped_nil⟩
    have hnone : byNumber (ofLevel [] 0) = [] := List.mergeSort_nil
    rw [if_pos rfl, hnone]
    rfl
  · rw [if_neg hempty]
    dsimp only
    have hperm := List.mergeSort_perm opened fun s t => s.levelNumber ≤ t.levelNumber
    have hsorted := sorted_mergeSort Sst.Segment.levelNumber opened
    generalize opened.mergeSort (fun s t => decide (s.levelNumber ≤ t.levelNumber)) = sorted
      at hperm hsorted
    have hsizes : ∀ n, fileSizes (byNumber (ofLevel sorted n)) = fileSizes (ofLevel opened n) :=
      fun n => fileSizes_perm ((List.mergeSort_perm ..).trans (hperm.filter _))
    obtain ⟨levels, hgroup, hgrouped⟩ := @groupLoop_ok levelZeroTargetSize levelSizeFactor sparsity
      sorted [] [] [] hsorted (fun t ht => absurd ht List.not_mem_nil) fun s hs hpos => by
        obtain ⟨targetSize, htarget, -⟩ := htargets s (hperm.mem_iff.mp hs) hpos
        exact ⟨targetSize, htarget⟩
    rw [List.nil_append] at hgrouped
    have hwithin : ∀ level ∈ levels, level.targetSize < 2 ^ 64 ∧
        fileSizes level.segments ≤ level.targetSize := by
      intro level hlevel
      have htarget := hgrouped.target level hlevel
      obtain ⟨s, hs, hnumber⟩ := hgrouped.inhabited level hlevel
      obtain ⟨targetSize, htarget', hle⟩ := htargets s (hperm.mem_iff.mp hs)
        (hnumber ▸ hgrouped.positive level hlevel)
      rw [hnumber] at htarget' hle
      cases htarget.symm.trans htarget'
      rw [hgrouped.holds level hlevel, hsizes]
      exact ⟨levelTargetSize_lt htarget, hle⟩
    have hselect : Sst.OverlappingLevel.segmentsToMerge
        ⟨byNumber (ofLevel sorted 0), levelZeroTargetSize⟩ = .ok [] := by
      have hsize := hsizes 0
      refine selectForMerge_within (totalSize_ok ?_) (hsize ▸ hzero)
      rw [hsize]
      exact hzero.trans_lt hlt
    refine ⟨sorted, levels, ?_, hperm, hgrouped⟩
    rw [hgroup, run_bind_ok (run_liftExec_ok ..), List.nil_append, List.nil_append]
    dsimp only
    rw [checkMerges_ok hwithin, run_bind_ok (run_liftExec_ok ..)]
    have hselect' := hselect
    unfold byNumber at hselect'
    rw [hselect', run_bind_ok (run_liftExec_ok ..), run_bind_ok (recoverLevels_run merge hwithin _)]
    dsimp only
    rw [List.nil_append, Sst.LevelContainer.addLevels]
    rfl

/-- A restart on the files of a container within its targets gives a container that answers every
lookup alike, and removes nothing but incomplete files.
SOURCE: level.rs:81-222 -/
theorem restart_rebuilds {c : Sst.LevelContainer} {dir : Dir}
    {levelZeroTargetSize levelSizeFactor : ℕ} (hgood : GoodContainer c)
    (hnumbers : NumberedLevels c) (hdistinct : DistinctSequenceNumbers c)
    (hfiles : FilesOf c dir) (hwithin : WithinTargets c levelZeroTargetSize levelSizeFactor)
    (sparsity : ℕ) (merge : Sst.Merge) (fuel : ℕ) :
    ∃ c' dir', (Sst.LevelContainer.fromDir levelZeroTargetSize levelSizeFactor sparsity merge
        fuel).run dir = .ok c' dir' ∧
      (∀ name ∈ dir.names, name ∉ dir'.names → Incomplete dir name) ∧
      (∀ name ∈ dir'.names, name ∈ dir.names ∧ dir'.content name = dir.content name) ∧
      (dir.faults = [] → ∀ name ∈ dir.names, Incomplete dir name → name ∉ dir'.names) ∧
      ∀ key, c'.get key = c.get key := by
  have hcomplete : ∀ name ∈ dir.names,
      (∃ s, Sst.Segment.fromFile dir name = .ok (.ok s)) ∨ Incomplete dir name := by
    intro name hname
    refine (hfiles.others name hname).imp_left ?_
    rintro ⟨s, hs, rfl⟩
    exact ⟨s, hfiles.opened s hs⟩
  obtain ⟨opened, dir', hopen, hsub, hmem, hremoved, hall⟩ := openSegments_ok dir.distinct
    hcomplete fun name hname => ⟨hname, hname, rfl⟩
  have hnodup : opened.Nodup := (dir.distinct.sublist hsub).of_map _
  have hsame : ∀ s, s ∈ opened ↔ s ∈ allSegments c := by
    intro s
    rw [hmem s]
    constructor
    · rintro ⟨name, hname, hfrom⟩
      obtain ⟨t, ht, rfl⟩ | hincomplete := hfiles.others name hname
      · cases (hfiles.opened t ht).symm.trans hfrom
        exact ht
      · cases (fromFile_incomplete hname hincomplete).symm.trans hfrom
    · intro hs
      have hfrom := hfiles.opened s hs
      exact ⟨s.filepath, (fromFile_eq_ok hfrom).1, hfrom⟩
  have hofZero : ∀ s ∈ ofLevel opened 0, s ∈ c.levelZero.segments := fun s hs =>
    (mem_levelZero_iff (p := fun _ => True) hnumbers (fun s _ => hsame s) trivial).mp
      (mem_byNumber.mpr hs)
  have htargets : ∀ s ∈ opened, 0 < s.levelNumber → ∃ targetSize,
      Sst.LevelContainer.levelTargetSize levelZeroTargetSize levelSizeFactor s.levelNumber =
        .ok targetSize ∧ fileSizes (ofLevel opened s.levelNumber) ≤ targetSize := by
    intro s hs hpos
    obtain hzero | hs := List.mem_append.mp ((hsame s).mp hs)
    · exact absurd (hnumbers.levelZero s hzero) hpos.ne'
    · obtain ⟨m, hm, hsm⟩ := List.mem_flatMap.mp hs
      obtain ⟨targetSize, htarget, hle⟩ := hwithin.levels m hm (List.ne_nil_of_mem hsm)
      rw [hnumbers.levels m hm s hsm]
      refine ⟨targetSize, htarget, (fileSizes_le (hnodup.filter _) fun t ht => ?_).trans hle⟩
      exact (mem_level_iff (p := fun _ => True) hnumbers (fun s _ => hsame s) hm trivial).mp
        (mem_byNumber.mpr ht)
  obtain ⟨sorted, levels, hrun, hperm, hgrouped⟩ := fromDir_run sparsity merge fuel hopen htargets
    hwithin.target_lt ((fileSizes_le (hnodup.filter _) hofZero).trans hwithin.levelZero)
  have hsorted : ∀ s, s ∈ sorted ↔ s ∈ allSegments c := fun s => hperm.mem_iff.trans (hsame s)
  refine ⟨_, dir', hrun, fun name hname hnot => (hremoved.removed name hname hnot).2,
    fun name hname => ⟨hremoved.kept name hname, hremoved.content name hname⟩, hall, ?_⟩
  exact rebuilt_get hgood hnumbers (hperm.nodup_iff.mpr hnodup) hsorted hgrouped hdistinct
    (fun s => mem_levelZero_iff (p := fun _ => True) hnumbers (fun s _ => hsorted s) trivial)
    levelZeroTargetSize

/-- A restart with two versions of a key and a file that was not completed. -/
theorem restart_rebuilds_two :
    let newer := segmentHolding "0000000000000001.sst" 0 1 [⟨"a", some "v", 2⟩]
    let older := segmentHolding "0000000300000001.sst" 3 1 [⟨"a", some "v", 1⟩]
    let c : Sst.LevelContainer := ⟨⟨[newer], 100⟩, [⟨[], 100, 1, 1⟩, ⟨[older], 100, 1, 3⟩]⟩
    let dir : Dir := ⟨[(older.filepath, older.file), ("0000000000000002.sst", List.replicate 12 0),
      (newer.filepath, newer.file)], by decide, []⟩
    ∃ c' dir', (Sst.LevelContainer.fromDir 100 10 1 (fun _ _ => throw .panic) 0).run dir =
        .ok c' dir' ∧
      (∀ name ∈ dir.names, name ∉ dir'.names → Incomplete dir name) ∧
      (∀ name ∈ dir'.names, name ∈ dir.names ∧ dir'.content name = dir.content name) ∧
      (dir.faults = [] → ∀ name ∈ dir.names, Incomplete dir name → name ∉ dir'.names) ∧
      ∀ key, c'.get key = c.get key := by
  intro newer older c dir
  have hkey : (asBytes "a").length < 2 ^ 31 := by decide
  have hnewer : Whole newer := whole_of_stored (oneEntry_stored hkey (by norm_num))
  have holder : Whole older := whole_of_stored (oneEntry_stored hkey (by norm_num))
  have hlevelOne : ∀ s ∈ c.levelZero.segments, s = newer := fun s hs => List.mem_singleton.mp hs
  have hlevels : ∀ l ∈ c.partitionedLevels, l = ⟨[], 100, 1, 1⟩ ∨ l = ⟨[older], 100, 1, 3⟩ :=
    fun l hl => List.mem_pair.mp hl
  have hall : ∀ s ∈ allSegments c, s = newer ∨ s = older := fun s hs => List.mem_pair.mp hs
  refine restart_rebuilds ⟨?_, ?_⟩ ⟨?_, ?_, ?_, ?_, ?_⟩ ?_ ⟨?_, ?_⟩ ⟨?_, ?_, ?_⟩ 1 _ 0
  · intro s hs
    rwa [hlevelOne s hs]
  · intro l hl
    obtain rfl | rfl := hlevels l hl
    · exact ⟨List.Pairwise.nil, fun s hs => absurd hs List.not_mem_nil⟩
    · refine ⟨List.pairwise_singleton .., fun s hs => ?_⟩
      rwa [List.mem_singleton.mp hs]
  · intro s hs
    rw [hlevelOne s hs]
    rfl
  · exact List.nodup_singleton _
  · intro l hl
    obtain rfl | rfl := hlevels l hl <;> decide
  · intro l hl s hs
    obtain rfl | rfl := hlevels l hl
    · cases hs
    · rw [List.mem_singleton.mp hs]
      rfl
  · exact List.pairwise_pair.mpr (by decide)
  · have hentries : allEntries c.levelZero.segments = [⟨"a", some "v", 2⟩] := by
      show allEntries [newer] = _
      rw [allEntries_singleton, entriesOf_eq (oneEntry_stored hkey (by norm_num))]
    unfold DistinctSequenceNumbers
    rw [hentries]
    exact List.nodup_singleton _
  · intro s hs
    obtain rfl | rfl := hall s hs <;> decide
  · intro name hname
    have hname : name = older.filepath ∨ name = "0000000000000002.sst" ∨ name = newer.filepath := by
      simpa [Dir.names, dir] using hname
    obtain rfl | rfl | rfl := hname
    · exact Or.inl ⟨older, List.mem_pair.mpr (Or.inr rfl), rfl⟩
    · exact Or.inr ⟨⟨(0, 2), by decide⟩, by decide, by decide⟩
    · exact Or.inl ⟨newer, List.mem_pair.mpr (Or.inl rfl), rfl⟩
  · norm_num
  · decide
  · intro l hl hne
    obtain rfl | rfl := hlevels l hl
    · exact absurd rfl hne
    · exact ⟨3000, by decide, by decide⟩

end Rkvs.Analysis

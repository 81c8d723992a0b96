import Rkvs.Analysis.CompactionLookups
import Rkvs.Interface.CompactionThread

/-!
# Flushes during a compaction

The swap replaces level zero by an empty one. So a segment is lost exactly if a flush has added it
after the compaction has copied level zero and before it swaps.
-/

set_option autoImplicit false

namespace Rkvs.Analysis

open Rkvs.Library Rkvs.Model Rkvs.Interface Rkvs.Interface.Shared

/-! ## What a compaction covers -/

/-- INTERNAL: more levels cover at least as much. -/
theorem covers_mono {levels levels' : List Sst.PartitionedLevel} {es : List SsTableEntry}
    (h : Covers levels es) (hsub : ∀ l ∈ levels, l ∈ levels') : Covers levels' es := by
  intro e he
  obtain ⟨l, hl, hfound⟩ := h e he
  exact ⟨l, hsub l hl, hfound⟩

/-- INTERNAL: what is covered by levels that are covered. -/
theorem covers_trans {levels levels' : List Sst.PartitionedLevel} {es : List SsTableEntry}
    (h : Covers levels es) (hlevels : ∀ l ∈ levels, Covers levels' (allEntries l.segments)) :
    Covers levels' es := by
  intro e he
  obtain ⟨l, hl, f, hf, hkey, hle⟩ := h e he
  obtain ⟨l', hl', f', hf', hkey', hle'⟩ := hlevels l hl f hf
  exact ⟨l', hl', f', hf', hkey'.trans hkey, hle.trans hle'⟩

/-- INTERNAL: a newest-wins union covers what was united. -/
theorem covers_of_newest {level : Sst.PartitionedLevel} {es : List SsTableEntry}
    (h : ∀ key, Newest es key (entryFor (allEntries level.segments) key)) : Covers [level] es := by
  intro e he
  have hnewest := h e.key
  cases hentry : entryFor (allEntries level.segments) e.key with
  | none =>
    rw [hentry] at hnewest
    exact absurd rfl (hnewest e he)
  | some f =>
    rw [hentry] at hnewest
    obtain ⟨hmem, hkey⟩ := mem_of_entryFor hentry
    exact ⟨level, List.mem_singleton_self _, f, hmem, hkey, hnewest.2.2 e he rfl⟩

/-- INTERNAL: levels cover the entries of each of them. -/
theorem covers_self {level : Sst.PartitionedLevel} {levels : List Sst.PartitionedLevel}
    (h : level ∈ levels) : Covers levels (allEntries level.segments) :=
  fun e he => ⟨level, h, e, he, rfl, le_refl _⟩

/-- INTERNAL: two lists of entries are covered if each of them is. -/
theorem covers_append {levels : List Sst.PartitionedLevel} {es fs : List SsTableEntry} :
    Covers levels (es ++ fs) ↔ Covers levels es ∧ Covers levels fs := by
  unfold Covers
  simp only [List.mem_append, or_imp, forall_and]

section
variable {merge : Sst.Merge} (hmerge : MergesNewest merge)
include hmerge

/-- INTERNAL: the loop covers what is merged and all levels.
SOURCE: compaction.rs:52-83 -/
theorem compactLoop_covers {fuel : ℕ} {levels newLevels res : List Sst.PartitionedLevel}
    {chosen : List Sst.Segment} {target number : ℕ} {bt bt' : Sst.CompactionBt}
    (hlevels : ∀ l ∈ levels, GoodLevel l) (hchosen : ∀ s ∈ chosen, Whole s)
    (h : (Sst.CompactionBt.compactLoop merge fuel levels chosen target number newLevels).run bt =
      .ok res bt') :
    (∀ l ∈ newLevels, l ∈ res) ∧ Covers res (allEntries chosen) ∧
      ∀ l ∈ levels, Covers res (allEntries l.segments) := by
  induction fuel generalizing levels chosen target number newLevels bt with
  | zero => cases h
  | succ fuel ih =>
    rw [Sst.CompactionBt.compactLoop] at h
    obtain ⟨⟨newLevel, target'⟩, _, hround, hcount⟩ := run_bind_eq_ok h
    obtain ⟨number', _, hnumber, hcheck⟩ := run_bind_eq_ok hcount
    obtain ⟨-, rfl⟩ := run_liftExec_eq_ok hnumber
    obtain ⟨big, _, hexceeds, hrest⟩ := run_bind_eq_ok hcheck
    obtain ⟨-, rfl⟩ := run_liftExec_eq_ok hexceeds
    obtain ⟨-, hnew, hnewest⟩ := compactRound_ok hmerge hlevels hchosen hround
    have htail : ∀ l ∈ levels.tail, GoodLevel l := fun l hl => hlevels l (List.mem_of_mem_tail hl)
    -- the new level stays, and with it what it covers
    have hstays : ∀ {res}, newLevel ∈ res → (∀ l ∈ levels.tail, Covers res (allEntries l.segments)) →
        Covers res (allEntries chosen) ∧ ∀ l ∈ levels, Covers res (allEntries l.segments) := by
      intro res hres hrest
      have hcovers := covers_of_newest hnewest
      rw [allEntries_append, covers_append] at hcovers
      have hsub : ∀ l ∈ [newLevel], l ∈ res := fun l hl => List.mem_singleton.mp hl ▸ hres
      refine ⟨covers_mono hcovers.2 hsub, fun l hl => ?_⟩
      cases levels with
      | nil => cases hl
      | cons first levels =>
        obtain rfl | hl := List.mem_cons.mp hl
        · exact covers_mono hcovers.1 hsub
        · exact hrest l hl
    cases big with
    | false =>
      cases hrest
      refine ⟨fun l hl => ?_, hstays ?_ fun l hl => covers_self (List.mem_append_right _ hl)⟩
      · exact List.mem_append_left _ (List.mem_append_left _ hl)
      · exact List.mem_append_left _ (List.mem_append_right _ (List.mem_singleton_self _))
    | true =>
      obtain ⟨chosen', _, hchosen', hloop⟩ := run_bind_eq_ok hrest
      obtain ⟨hselect, rfl⟩ := run_liftExec_eq_ok hchosen'
      have hsubset := selectForMerge_subset hselect
      obtain ⟨hkept, -, hcovers⟩ := ih htail (fun s hs => hnew.whole s (hsubset s hs)) hloop
      refine ⟨fun l hl => hkept l (List.mem_append_left _ hl), hstays ?_ hcovers⟩
      exact hkept newLevel (List.mem_append_right _ (List.mem_singleton_self _))

end

/-! ## Every state -/

/-- INTERNAL: what the merge in progress has covered. -/
def ProgressSound (st : Shared) : Prop :=
  match st.progress with
  | .idle => True
  | .copied copy => copy.partitionedLevels = st.container.partitionedLevels ∧
      ∀ s ∈ copy.levelZero.segments, Whole s
  | .merged copy newLevels => (∀ l ∈ newLevels, GoodLevel l) ∧
      (∀ l ∈ st.container.partitionedLevels, Covers newLevels (allEntries l.segments)) ∧
      ∀ s ∈ copy.levelZero.segments, Covers newLevels (entriesOf s)

/-- INTERNAL: what holds in every state. -/
structure SharedSound (st : Shared) : Prop where
  good : GoodContainer st.container
  recorded : ∀ s ∈ st.container.levelZero.segments, s ∈ st.flushed
  absorbed : ∀ s ∈ st.absorbed, Covers st.container.partitionedLevels (entriesOf s)
  progress : ProgressSound st

/-- INTERNAL: good levels are a sound start. -/
theorem sharedSound_start {c : Sst.LevelContainer} (hgood : GoodContainer c) : SharedSound (start c) :=
  ⟨hgood, fun _ hs => hs, fun _ hs => absurd hs List.not_mem_nil, trivial⟩

/-- INTERNAL: a flush adds the segment of the file.
SOURCE: level.rs:248-267 -/
theorem addToLevelZero_eq {c c' : Sst.LevelContainer} {dir : Dir} {path : String} {s : Sst.Segment}
    (hwritten : Sst.Segment.fromFile dir path = .ok (.ok s))
    (h : c.addToLevelZero dir path = .ok c') :
    c'.levelZero.segments = c.levelZero.segments ++ [s] ∧
      c'.partitionedLevels = c.partitionedLevels := by
  unfold Sst.LevelContainer.addToLevelZero at h
  rw [hwritten, exec_ok_bind] at h
  cases h
  exact ⟨rfl, rfl⟩

/-- INTERNAL: a compaction of a copy covers the copy.
SOURCE: compaction.rs:36-84 -/
theorem compactFromLevelZero_covers {merge : Sst.Merge} (hmerge : MergesNewest merge) {fuel : ℕ}
    {bt bt' : Sst.CompactionBt} {chosen : List Sst.Segment}
    {newLevels : List Sst.PartitionedLevel} (hgood : GoodContainer bt.container)
    (hselected : bt.container.levelZero.segmentsToMerge = .ok chosen)
    (h : (Sst.CompactionBt.compactFromLevelZero merge fuel).run bt = .ok newLevels bt') :
    (∀ l ∈ newLevels, GoodLevel l) ∧ Covers newLevels (allEntries chosen) ∧
      ∀ l ∈ bt.container.partitionedLevels, Covers newLevels (allEntries l.segments) := by
  unfold Sst.CompactionBt.compactFromLevelZero at h
  rw [run_bind_ok (EStateM.run_get bt), run_bind_ok (EStateM.run_get bt), hselected,
    run_bind_ok (run_liftExec_ok ..)] at h
  have hchosen : ∀ s ∈ chosen, Whole s := fun s hs =>
    hgood.levelZero s (selectForMerge_subset hselected s hs)
  obtain ⟨-, tail, rfl, htail, -⟩ := compactLoop_ok hmerge hgood.levels hchosen h
  obtain ⟨-, hcovers⟩ := compactLoop_covers hmerge hgood.levels hchosen h
  exact ⟨htail, hcovers⟩

/-- INTERNAL: every step keeps it. -/
theorem sharedSound_step {st st' : Shared} {a : Action} (h : SharedSound st)
    (hstep : Shared.Step st a st') : SharedSound st' := by
  cases hstep with
  | @flush dir path s c written whole added =>
    obtain ⟨hzero, hlevels⟩ := addToLevelZero_eq written added
    refine ⟨⟨fun t ht => ?_, hlevels ▸ h.good.levels⟩, fun t ht => ?_, hlevels ▸ h.absorbed, ?_⟩
    · rw [hzero] at ht
      obtain ht | ht := List.mem_append.mp ht
      · exact h.good.levelZero t ht
      · exact List.mem_singleton.mp ht ▸ whole
    · rw [hzero] at ht
      exact (List.mem_append.mp ht).elim
        (fun ht => List.mem_append_left _ (h.recorded t ht)) (List.mem_append_right _)
    · have hprogress := h.progress
      unfold ProgressSound at hprogress ⊢
      rwa [hlevels]
  | copy idle => exact ⟨h.good, h.recorded, h.absorbed, rfl, h.good.levelZero⟩
  | @merge bt bt' chosen merge fuel newLevels copied selected all newest returned =>
    have hprogress := h.progress
    unfold ProgressSound at hprogress
    rw [copied] at hprogress
    obtain ⟨hlevels, hwhole⟩ := hprogress
    have hgood : GoodContainer bt.container := ⟨hwhole, hlevels ▸ h.good.levels⟩
    obtain ⟨hnew, hchosen, hcovers⟩ :=
      compactFromLevelZero_covers newest hgood selected returned
    refine ⟨h.good, h.recorded, h.absorbed, hnew, hlevels ▸ hcovers, fun s hs e he => ?_⟩
    exact hchosen e (mem_allEntries.mpr ⟨s, all s hs, he⟩)
  | @swap copy newLevels merged =>
    have hprogress := h.progress
    unfold ProgressSound at hprogress
    rw [merged] at hprogress
    obtain ⟨hnew, hcovers, hcopy⟩ := hprogress
    refine ⟨⟨fun s hs => absurd hs List.not_mem_nil, hnew⟩, fun s hs => absurd hs List.not_mem_nil,
      fun s hs => ?_, trivial⟩
    obtain hs | hs := List.mem_append.mp hs
    · exact covers_trans (h.absorbed s hs) hcovers
    · exact hcopy s hs

/-! ## Nothing is lost -/

/-- INTERNAL: what holds as long as swaps are up to date. -/
def AllKept (st : Shared) : Prop :=
  ∀ s ∈ st.flushed, s ∈ st.container.levelZero.segments ∨ s ∈ st.absorbed

/-- INTERNAL: nothing is lost if everything is kept. -/
theorem nothingLost_of_allKept {st : Shared} (hsound : SharedSound st) (h : AllKept st) :
    NothingLost st := by
  intro s hs
  obtain hs | hs := h s hs
  · exact Or.inl hs
  · exact Or.inr (Or.inl ⟨hs, hsound.absorbed s hs⟩)

/-- INTERNAL: a step loses nothing, unless it is a swap that is not up to date. -/
theorem allKept_step {st st' : Shared} {a : Action} (h : AllKept st)
    (hclean : a = .swap → UpToDate st) (hstep : Shared.Step st a st') : AllKept st' := by
  cases hstep with
  | @flush dir path s c written whole added =>
    intro t ht
    show t ∈ c.levelZero.segments ∨ t ∈ st.absorbed
    rw [(addToLevelZero_eq written added).1]
    obtain ht | ht := List.mem_append.mp ht
    · exact (h t ht).imp_left (List.mem_append_left _)
    · exact Or.inl (List.mem_append_right _ ht)
  | copy idle => exact h
  | merge copied selected all newest returned => exact h
  | @swap copy newLevels merged =>
    intro t ht
    have hmerge : st.inMerge = copy.levelZero.segments := by
      unfold Shared.inMerge
      rw [merged]
    obtain ht | ht := h t ht
    · have hclean := hclean rfl t ht
      rw [hmerge] at hclean
      exact Or.inr (List.mem_append.mpr hclean.symm)
    · exact Or.inr (List.mem_append_left _ ht)

/-- INTERNAL: a swap that is not up to date loses a segment. -/
theorem upToDate_of_swap {st st' : Shared} (hsound : SharedSound st) (hstep : Shared.Step st .swap st')
    (h : NothingLost st') : UpToDate st := by
  cases hstep with
  | @swap copy newLevels merged =>
    intro s hs
    have hmerge : st.inMerge = copy.levelZero.segments := by
      unfold Shared.inMerge
      rw [merged]
    obtain hzero | ⟨habsorbed, -⟩ | hmerging := h s (hsound.recorded s hs)
    · cases hzero
    · rw [hmerge]
      exact (List.mem_append.mp habsorbed).symm
    · cases hmerging

/-! ## A flush during a merge -/

/-- INTERNAL: a first flush of a key. -/
def firstFlushed : Sst.Segment := versionOf "0000000000000001.sst" 0 1 1

/-- INTERNAL: a second flush of the key. -/
def secondFlushed : Sst.Segment := versionOf "0000000000000002.sst" 0 2 2

/-- INTERNAL: the first flush on level one. -/
def firstMerged : Sst.Segment := versionOf "0000000100000001.sst" 1 1 1

/-- A merge of the first segment into an empty level. -/
def mergeFirst : Sst.Merge := fun level incoming =>
  if level.segments = [] ∧ incoming = [firstFlushed] then
    return ({ level with segments := [firstMerged] }, incoming)
  else throw .panic

/-- INTERNAL: a directory with the file of a segment. -/
def dirOf (s : Sst.Segment) : Dir where
  files := [(s.filepath, s.file)]
  distinct := List.nodup_singleton _
  faults := []

/-- INTERNAL: the merge of the first flush keeps the newest entries. -/
theorem mergeFirst_newest : MergesNewest mergeFirst := by
  intro level incoming d level' deleted d' _ _ hrun
  unfold mergeFirst at hrun
  by_cases hfirst : level.segments = [] ∧ incoming = [firstFlushed]
  · rw [if_pos hfirst] at hrun
    cases hrun
    have hwhole : Whole firstMerged := versionOf_whole (by norm_num)
    refine ⟨⟨List.pairwise_singleton .., fun s hs => ?_⟩, fun key => ?_⟩
    · rwa [List.mem_singleton.mp hs]
    · have hsame : allEntries [firstFlushed] = allEntries [firstMerged] := by
        rw [allEntries_singleton, allEntries_singleton]
        exact (entriesOf_eq (versionOf_stored (by norm_num))).trans
          (entriesOf_eq (versionOf_stored (by norm_num))).symm
      rw [hfirst.1, hfirst.2, List.nil_append, hsame]
      apply newest_entryFor
      rw [allEntries_singleton]
      exact whole_nodup hwhole
  · rw [if_neg hfirst] at hrun
    cases hrun

/-- INTERNAL: no segment at all. -/
def noLevels : Sst.LevelContainer := ⟨⟨[], 10⟩, []⟩

/-- INTERNAL: the file of the first flush can be opened. -/
theorem firstFlushed_written : Sst.Segment.fromFile (dirOf firstFlushed) firstFlushed.filepath =
    .ok (.ok firstFlushed) := by decide

/-- INTERNAL: the file of the second flush can be opened. -/
theorem secondFlushed_written : Sst.Segment.fromFile (dirOf secondFlushed) secondFlushed.filepath =
    .ok (.ok secondFlushed) := by decide

/-- INTERNAL: a flush of a segment file that was written.
SOURCE: level.rs:248-267 -/
theorem step_flush {st : Shared} {dir : Dir} {path : String} {s : Sst.Segment}
    (hwritten : Sst.Segment.fromFile dir path = .ok (.ok s)) (hwhole : Whole s) :
    Shared.Step st .flush
      { st with
        container := { st.container with
          levelZero := { st.container.levelZero with
            segments := st.container.levelZero.segments ++ [s] } }
        flushed := st.flushed ++ [s] } := by
  apply Step.flush hwritten hwhole
  unfold Sst.LevelContainer.addToLevelZero
  rw [hwritten, exec_ok_bind]
  rfl

/-- INTERNAL: the first segment is flushed, copied and merged. -/
theorem merging_run :
    Run Shared.Step (start noLevels)
      [(start noLevels, .flush), (⟨⟨⟨[firstFlushed], 10⟩, []⟩, .idle, [firstFlushed], []⟩, .copy),
        (⟨⟨⟨[firstFlushed], 10⟩, []⟩, .copied ⟨⟨[firstFlushed], 10⟩, []⟩, [firstFlushed], []⟩, .merge)]
      ⟨⟨⟨[firstFlushed], 10⟩, []⟩,
        .merged ⟨⟨[firstFlushed], 10⟩, []⟩ [⟨[firstMerged], 100, 1, 1⟩], [firstFlushed], []⟩ := by
  have hmerged : ∃ bt', (Sst.CompactionBt.compactFromLevelZero mergeFirst 1).run
      ⟨⟨⟨[firstFlushed], 10⟩, []⟩, [], 10, Dir.empty⟩ =
        .ok [⟨[firstMerged], 100, 1, 1⟩] bt' := ⟨_, rfl⟩
  obtain ⟨bt', hmerged⟩ := hmerged
  have hselect : Sst.OverlappingLevel.segmentsToMerge ⟨[firstFlushed], 10⟩ = .ok [firstFlushed] := by
    decide
  exact ((Run.nil.snoc (step_flush firstFlushed_written (versionOf_whole (by norm_num)))).snoc
    (Step.copy rfl)).snoc (Step.merge rfl hselect (fun s hs => hs) mergeFirst_newest hmerged)

/-- No segment is lost in any state of a run exactly if level zero is still the one that was copied
whenever the levels are swapped.
SOURCE: compaction.rs:36-84, 210-220; level.rs:239-246 -/
theorem nothing_lost_iff {c : Sst.LevelContainer} (hgood : GoodContainer c)
    {steps : List (Shared × Action)} {st : Shared}
    (hrun : Run Shared.Step (start c) steps st) :
    ((∀ p ∈ steps, NothingLost p.1) ∧ NothingLost st) ↔
      ∀ p ∈ steps, p.2 = .swap → UpToDate p.1 := by
  have hsound := hrun.invariant (sharedSound_start hgood) fun _ _ _ h hstep => sharedSound_step h hstep
  constructor
  · intro h p hp hswap
    obtain ⟨st', hstep, hkept⟩ := hrun.exists_next h p hp
    rw [hswap] at hstep
    exact upToDate_of_swap (hsound.1 p hp) hstep hkept
  · intro h
    have hkept := hrun.invariant_of_guard (I := AllKept) (fun s hs => Or.inl hs)
      (fun s a s' hs hclean hstep => allKept_step hs hclean hstep) h
    exact ⟨fun p hp => nothingLost_of_allKept (hsound.1 p hp) (hkept.1 p hp),
      nothingLost_of_allKept hsound.2 hkept.2⟩

/-- The segment that is flushed during the merge is in no level afterwards. -/
theorem flush_during_merge_lost :
    ∃ steps st, Run Shared.Step (start noLevels) steps st ∧ ¬NothingLost st := by
  have hrun := (merging_run.snoc (step_flush secondFlushed_written
    (versionOf_whole (by norm_num)))).snoc (Step.swap rfl)
  refine ⟨_, _, hrun, fun hkept => ?_⟩
  have hmem : secondFlushed ∈ [firstFlushed] ++ [secondFlushed] :=
    List.mem_append_right _ (List.mem_singleton_self _)
  obtain hzero | ⟨habsorbed, -⟩ | hmerging := hkept secondFlushed hmem
  · cases hzero
  · have hne : secondFlushed ≠ firstFlushed := by decide
    exact hne (List.mem_singleton.mp habsorbed)
  · cases hmerging

/-- Where the second segment is flushed after the swap nothing is lost. -/
theorem nothing_lost_one_after_other :
    ∃ steps st, Run Shared.Step (start noLevels) steps st ∧
      (∀ p ∈ steps, NothingLost p.1) ∧ NothingLost st ∧ st.flushed = [firstFlushed, secondFlushed] := by
  have hgood : GoodContainer noLevels :=
    ⟨fun s hs => absurd hs List.not_mem_nil, fun l hl => absurd hl List.not_mem_nil⟩
  have hrun := (merging_run.snoc (Step.swap rfl)).snoc (step_flush secondFlushed_written
    (versionOf_whole (by norm_num)))
  have hkept := (nothing_lost_iff hgood hrun).mpr ?_
  · exact ⟨_, _, hrun, hkept.1, hkept.2, rfl⟩
  · intro p hp hswap
    obtain hp | hp := List.mem_append.mp hp
    · obtain hp | hp := List.mem_append.mp hp
      · obtain rfl | hp := List.mem_cons.mp hp
        · cases hswap
        · obtain rfl | rfl := List.mem_pair.mp hp <;> cases hswap
      · rw [List.mem_singleton.mp hp]
        exact fun s hs => Or.inl hs
    · rw [List.mem_singleton.mp hp] at hswap
      cases hswap

end Rkvs.Analysis

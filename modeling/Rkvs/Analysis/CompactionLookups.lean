import Rkvs.Analysis.CompactionLoop

/-!
# What a compaction loses

After a notification everything is gone that was in level zero and not selected. Without one the
first level over its target goes the same way.
-/

set_option autoImplicit false

namespace Rkvs.Analysis

open Rkvs.Library Rkvs.Model Rkvs.Interface

/-! ## Runs -/

/-- INTERNAL: removing a file returns. -/
theorem tryRemove_ok (file : String) (d : Dir) :
    ∃ d', (Dir.tryRemove file).run d = .ok () d' := by
  cases hrun : (Dir.remove file).run d with
  | ok u d' => exact ⟨d', Dir.tryRemove_of_ok hrun⟩
  | error e d' => exact ⟨d', Dir.tryRemove_of_error hrun⟩

/-- INTERNAL: so does removing several. -/
theorem forM_tryRemove_ok (files : List String) (d : Dir) :
    ∃ d', (files.forM Dir.tryRemove).run d = .ok () d' := by
  induction files generalizing d with
  | nil => exact ⟨d, rfl⟩
  | cons file files ih =>
    obtain ⟨d₁, hfirst⟩ := tryRemove_ok file d
    obtain ⟨d', hrest⟩ := ih d₁
    exact ⟨d', (run_bind_ok hfirst).trans hrest⟩

/-- The removal of files does not fail, and does not touch the container.
SOURCE: compaction.rs:172-194 -/
theorem removeSegmentFiles_ok (referenced : Sst.Segment → Bool) (bt : Sst.CompactionBt) :
    ∃ bt', (Sst.CompactionBt.removeSegmentFiles referenced).run bt = .ok () bt' ∧
      bt'.container = bt.container ∧ bt'.levelSizeFactor = bt.levelSizeFactor := by
  obtain ⟨dir, hdir⟩ := forM_tryRemove_ok
    ((bt.segmentsToDelete.filter fun s => !referenced s).map Sst.Segment.filepath) bt.dir
  refine ⟨{ bt with segmentsToDelete := bt.segmentsToDelete.filter referenced, dir := dir }, ?_,
    rfl, rfl⟩
  unfold Sst.CompactionBt.removeSegmentFiles
  rw [run_bind_ok (EStateM.run_get bt), run_bind_ok (EStateM.run_modify ..)]
  exact run_onPart_ok Sst.CompactionBt.dirPart hdir

/-- A compaction after a notification that returns.
SOURCE: compaction.rs:36-84, 212-224 -/
theorem notified_eq_ok {merge : Sst.Merge} {fuel : ℕ} {referenced : Sst.Segment → Bool}
    {bt bt' : Sst.CompactionBt}
    (h : (Sst.CompactionBt.notified merge fuel referenced).run bt = .ok () bt') :
    ∃ chosen newLevels bt₁, bt.container.levelZero.segmentsToMerge = .ok chosen ∧
      (Sst.CompactionBt.compactLoop merge fuel bt.container.partitionedLevels chosen
        bt.container.levelZero.targetSize 1 []).run bt = .ok newLevels bt₁ ∧
      bt'.container = bt₁.container.swapAllLevels newLevels := by
  obtain ⟨newLevels, bt₁, hcompact, hrest⟩ := run_bind_eq_ok h
  obtain ⟨_, _, hswap, hremove⟩ := run_bind_eq_ok hrest
  cases hswap
  obtain ⟨_, _, hget, hlevels⟩ := run_bind_eq_ok hcompact
  cases hget
  obtain ⟨_, _, hget, hselect⟩ := run_bind_eq_ok hlevels
  cases hget
  obtain ⟨chosen, _, hchosen, hloop⟩ := run_bind_eq_ok hselect
  obtain ⟨hchosen, rfl⟩ := run_liftExec_eq_ok hchosen
  refine ⟨chosen, newLevels, bt₁, hchosen, hloop, ?_⟩
  obtain ⟨bt₂, hremoved, hcontainer, -⟩ := removeSegmentFiles_ok referenced
    { bt₁ with container := bt₁.container.swapAllLevels newLevels }
  rw [hremoved] at hremove
  cases hremove
  exact hcontainer

/-- INTERNAL: it returns if its loop does.
SOURCE: compaction.rs:36-84, 212-224 -/
theorem notified_ok {merge : Sst.Merge} {fuel : ℕ} {bt bt₁ : Sst.CompactionBt}
    {chosen : List Sst.Segment} {newLevels : List Sst.PartitionedLevel}
    (referenced : Sst.Segment → Bool)
    (hchosen : bt.container.levelZero.segmentsToMerge = .ok chosen)
    (hloop : (Sst.CompactionBt.compactLoop merge fuel bt.container.partitionedLevels chosen
      bt.container.levelZero.targetSize 1 []).run bt = .ok newLevels bt₁) :
    ∃ bt', (Sst.CompactionBt.notified merge fuel referenced).run bt = .ok () bt' ∧
      bt'.container = bt₁.container.swapAllLevels newLevels := by
  obtain ⟨bt', hremoved, hcontainer, -⟩ := removeSegmentFiles_ok referenced
    { bt₁ with container := bt₁.container.swapAllLevels newLevels }
  have hcompact : (Sst.CompactionBt.compactFromLevelZero merge fuel).run bt =
      .ok newLevels bt₁ := by
    unfold Sst.CompactionBt.compactFromLevelZero
    rw [run_bind_ok (EStateM.run_get bt), run_bind_ok (EStateM.run_get bt), hchosen,
      run_bind_ok (run_liftExec_ok ..), hloop]
  refine ⟨bt', ?_, hcontainer⟩
  unfold Sst.CompactionBt.notified
  rw [run_bind_ok hcompact, run_bind_ok (EStateM.run_modify ..), hremoved]

/-- A compaction without a notification that returns: no level is over its target, or the loop
has returned.
SOURCE: compaction.rs:90-168, 225-235 -/
theorem timedOut_eq_ok {merge : Sst.Merge} {fuel : ℕ} {referenced : Sst.Segment → Bool}
    {bt bt' : Sst.CompactionBt}
    (h : (Sst.CompactionBt.timedOut merge fuel referenced).run bt = .ok () bt') :
    ∃ bt₀ front toCompact newLevels bt₁, bt₀.container = bt.container ∧
      bt₀.levelSizeFactor = bt.levelSizeFactor ∧
      Sst.CompactionBt.findPartitionedLevelsToCompact bt.container.partitionedLevels =
        .ok (front, toCompact) ∧
      (Sst.CompactionBt.compactFromPartitionedLevel merge fuel toCompact).run bt₀ =
        .ok newLevels bt₁ ∧
      bt'.container = bt₁.container.swapPartitionedLevels (front ++ newLevels) := by
  obtain ⟨_, _, hremove, hfind⟩ := run_bind_eq_ok h
  obtain ⟨bt₀, hremoved, hcontainer, hfactor⟩ := removeSegmentFiles_ok referenced bt
  rw [hremoved] at hremove
  cases hremove
  obtain ⟨_, _, hget, hsplit⟩ := run_bind_eq_ok hfind
  cases hget
  obtain ⟨⟨front, toCompact⟩, _, hlift, hcompact⟩ := run_bind_eq_ok hsplit
  obtain ⟨hlift, rfl⟩ := run_liftExec_eq_ok hlift
  obtain ⟨newLevels, bt₁, hunwrap, hswap⟩ := run_bind_eq_ok hcompact
  cases hswap
  rw [hcontainer] at hlift
  exact ⟨_, front, toCompact, newLevels, bt₁, hcontainer, hfactor, hlift,
    Sst.CompactionBt.run_unwrapped_eq_ok.mp hunwrap, rfl⟩

/-- INTERNAL: it returns if its loop does.
SOURCE: compaction.rs:90-168, 225-235 -/
theorem timedOut_ok (merge : Sst.Merge) (fuel : ℕ) {bt : Sst.CompactionBt}
    {front behind : List Sst.PartitionedLevel} {first : Sst.PartitionedLevel}
    {chosen : List Sst.Segment} (hstart : StartsAt bt front first behind chosen)
    (referenced : Sst.Segment → Bool) {P : List Sst.PartitionedLevel → Prop}
    (hloop : ∀ bt₀, bt₀.container = bt.container → bt₀.levelSizeFactor = bt.levelSizeFactor →
      ∃ newLevels bt₁, (Sst.CompactionBt.compactLoop merge fuel behind chosen first.targetSize
        (first.levelNumber + 1) []).run bt₀ = .ok newLevels bt₁ ∧
        bt₁.container = bt₀.container ∧ P newLevels) :
    ∃ newLevels bt', (Sst.CompactionBt.timedOut merge fuel referenced).run bt = .ok () bt' ∧
      bt'.container = bt.container.swapPartitionedLevels (front ++ newLevels) ∧ P newLevels := by
  obtain ⟨bt₀, hremoved, hcontainer, hfactor⟩ := removeSegmentFiles_ok referenced bt
  obtain ⟨newLevels, bt₁, hrun, hsame, hP⟩ := hloop bt₀ hcontainer hfactor
  have hnumber := hstart.number_lt
  have hcompact : (Sst.CompactionBt.compactFromPartitionedLevel merge fuel
      (first :: behind)).run bt₀ = .ok newLevels bt₁ := by
    unfold Sst.CompactionBt.compactFromPartitionedLevel
    dsimp only
    rw [hstart.chosen, run_bind_ok (run_liftExec_ok ..), checkedAdd_ok (by omega),
      run_bind_ok (run_liftExec_ok ..), hrun]
  refine ⟨newLevels,
    { bt₁ with container := bt₁.container.swapPartitionedLevels (front ++ newLevels) }, ?_,
    by rw [hsame, hcontainer], hP⟩
  unfold Sst.CompactionBt.timedOut
  rw [run_bind_ok hremoved, run_bind_ok (EStateM.run_get _), hcontainer, hstart.split,
    run_bind_ok (run_liftExec_ok ..)]
  dsimp only
  rw [run_bind_ok (Sst.CompactionBt.run_unwrapped_eq_ok.mpr hcompact), EStateM.run_modify]

/-! ## A merge into one segment -/

/-- The newest-wins union, with one entry preferred to others that are as new. -/
def unionPreferring (z : SsTableEntry) (es : List SsTableEntry) : List SsTableEntry :=
  newestUnion SsTableEntry.key SsTableEntry.sequenceNumber (es ++ if z ∈ es then [z] else [])

/-- A merge that gets everything into one segment, which it reports to be small. -/
def mergePreferring (z : SsTableEntry) : Sst.Merge := fun level incoming =>
  let union := unionPreferring z (allEntries (level.segments ++ incoming))
  pure ({ level with
    segments := if union = [] then [] else
      [{ segmentHolding "" level.levelNumber 1 union with size := 0 }] }, [])

/-- INTERNAL: the union has the newest entry of each key. -/
theorem union_newest (z : SsTableEntry) (es : List SsTableEntry) (key : String) :
    Newest es key (entryFor (unionPreferring z es) key) := by
  have hunion : Newest (es ++ if z ∈ es then [z] else []) key
      (entryFor (unionPreferring z es) key) := isNewest_newestUnion _ key
  refine hunion.congr fun e _ => ?_
  by_cases hz : z ∈ es
  · rw [if_pos hz, List.mem_append, List.mem_singleton]
    exact ⟨fun h => h.elim (fun h => h) fun h => h ▸ hz, Or.inl⟩
  · rw [if_neg hz, List.append_nil]

/-- INTERNAL: a newest entry that is preferred is kept. -/
theorem union_preferred {z : SsTableEntry} {es : List SsTableEntry} {key : String}
    (h : Newest es key (some z)) : entryFor (unionPreferring z es) key = some z := by
  obtain ⟨hmem, rfl, hmax⟩ := h
  unfold unionPreferring
  rw [if_pos hmem]
  exact find_newestUnion_last es hmax

/-- INTERNAL: its segment holds it. -/
theorem union_segment_stored {z : SsTableEntry} {segments : List Sst.Segment}
    (hwhole : ∀ s ∈ segments, Whole s) (hne : unionPreferring z (allEntries segments) ≠ [])
    (levelNumber : ℕ) :
    Stored { segmentHolding "" levelNumber 1 (unionPreferring z (allEntries segments)) with
      size := 0 } (unionPreferring z (allEntries segments)) := by
  have hfits : ∀ e ∈ unionPreferring z (allEntries segments), EntryFits e := by
    intro e he
    have hmem : e ∈ allEntries segments := by
      obtain hmem | hmem := List.mem_append.mp (mem_of_mem_newestUnion he)
      · exact hmem
      · split at hmem
        · rename_i hz
          exact List.mem_singleton.mp hmem ▸ hz
        · exact absurd hmem List.not_mem_nil
    obtain ⟨s, hs, hes⟩ := mem_allEntries.mp hmem
    exact (hwhole s hs).fits e hes
  obtain ⟨hasc, hfits, hdata, hend, hindex, hfirst, hlast⟩ :=
    @segmentHolding_stored "" levelNumber 1 _ hne (pairwise_newestUnion _) hfits
  exact ⟨hasc, hfits, hdata, hend, hindex, hfirst, hlast⟩

/-- INTERNAL: what the merge gives. -/
theorem mergePreferring_run (z : SsTableEntry) {level : Sst.PartitionedLevel}
    {incoming : List Sst.Segment} (hwhole : ∀ s ∈ level.segments ++ incoming, Whole s) (d : Dir) :
    ∃ level', (mergePreferring z level incoming).run d = .ok (level', []) d ∧ GoodLevel level' ∧
      allEntries level'.segments = unionPreferring z (allEntries (level.segments ++ incoming)) ∧
      level'.exceedsTargetSize = .ok false := by
  refine ⟨_, rfl, ?_⟩
  have hsmall : ¬0 > level.targetSize := Nat.not_lt_zero _
  by_cases hne : unionPreferring z (allEntries (level.segments ++ incoming)) = []
  · rw [if_pos hne, hne]
    refine ⟨⟨List.Pairwise.nil, fun s hs => absurd hs List.not_mem_nil⟩, rfl, ?_⟩
    exact congrArg Except.ok (decide_eq_false hsmall)
  · rw [if_neg hne]
    have hstored := union_segment_stored hwhole hne level.levelNumber
    refine ⟨⟨List.pairwise_singleton .., fun s hs => ?_⟩, ?_,
      congrArg Except.ok (decide_eq_false hsmall)⟩
    · rw [List.mem_singleton.mp hs]
      exact whole_of_stored hstored
    · rw [allEntries_singleton, entriesOf_eq hstored]

/-- INTERNAL: the merge keeps the newest entries. -/
theorem mergePreferring_newest (z : SsTableEntry) : MergesNewest (mergePreferring z) := by
  intro level incoming d level' deleted d' hlevel hincoming hrun
  have hwhole : ∀ s ∈ level.segments ++ incoming, Whole s := fun s hs =>
    (List.mem_append.mp hs).elim (hlevel.whole s) (hincoming s)
  obtain ⟨level₁, hrun₁, hgood, hentries, -⟩ := mergePreferring_run z hwhole d
  rw [hrun₁] at hrun
  cases hrun
  refine ⟨hgood, fun key => ?_⟩
  rw [hentries]
  exact union_newest z _ key

/-- INTERNAL: a round with it.
SOURCE: compaction.rs:53-75, 105-127 -/
theorem compactRound_preferring (z : SsTableEntry) {levels : List Sst.PartitionedLevel}
    {chosen : List Sst.Segment} {target : ℕ} (number : ℕ) (hlevels : ∀ l ∈ levels, GoodLevel l)
    (hchosen : ∀ s ∈ chosen, Whole s) (bt : Sst.CompactionBt)
    (htarget : levels = [] → target * bt.levelSizeFactor < 2 ^ 64) :
    ∃ newLevel target' bt', (Sst.CompactionBt.compactRound (mergePreferring z) levels chosen target
        number).run bt = .ok (newLevel, target') bt' ∧ bt'.container = bt.container ∧
      GoodLevel newLevel ∧ newLevel.exceedsTargetSize = .ok false ∧
      allEntries newLevel.segments =
        unionPreferring z (allEntries (firstSegments levels ++ chosen)) := by
  cases levels with
  | nil =>
    obtain ⟨newLevel, hrun, hgood, hentries, hsmall⟩ := @mergePreferring_run z
      (Sst.PartitionedLevel.new (target * bt.levelSizeFactor) number) chosen hchosen bt.dir
    refine ⟨newLevel, target, { bt with segmentsToDelete := bt.segmentsToDelete ++ [] }, ?_, rfl,
      hgood, hsmall, hentries⟩
    rw [Sst.CompactionBt.compactRound, run_bind_ok (EStateM.run_get bt)]
    dsimp only
    rw [checkedMul_ok (htarget rfl), run_bind_ok (run_liftExec_ok ..)]
    unfold Sst.CompactionBt.mergeInto
    rw [bind_assoc, run_bind_ok (run_onPart_ok Sst.CompactionBt.dirPart hrun)]
    rfl
  | cons level levels =>
    have hlevel := hlevels level (List.mem_cons_self ..)
    have hwhole : ∀ s ∈ level.segments ++ chosen, Whole s := fun s hs =>
      (List.mem_append.mp hs).elim (hlevel.whole s) (hchosen s)
    obtain ⟨newLevel, hrun, hgood, hentries, hsmall⟩ := mergePreferring_run z hwhole bt.dir
    refine ⟨newLevel, level.targetSize, { bt with segmentsToDelete := bt.segmentsToDelete ++ [] },
      ?_, rfl, hgood, hsmall, hentries⟩
    rw [Sst.CompactionBt.compactRound]
    unfold Sst.CompactionBt.mergeInto
    rw [bind_assoc, run_bind_ok (run_onPart_ok Sst.CompactionBt.dirPart hrun)]
    rfl

/-- INTERNAL: a compaction with it takes one round.
SOURCE: compaction.rs:52-83, 104-135 -/
theorem compactLoop_preferring (z : SsTableEntry) {levels : List Sst.PartitionedLevel}
    {chosen : List Sst.Segment} {target number : ℕ} (hlevels : ∀ l ∈ levels, GoodLevel l)
    (hchosen : ∀ s ∈ chosen, Whole s) (hnumber : number + 1 < 2 ^ 64) (bt : Sst.CompactionBt)
    (htarget : levels = [] → target * bt.levelSizeFactor < 2 ^ 64) :
    ∃ newLevel bt', (Sst.CompactionBt.compactLoop (mergePreferring z) 1 levels chosen target number
        []).run bt = .ok (newLevel :: levels.tail) bt' ∧ bt'.container = bt.container ∧
      GoodLevel newLevel ∧ allEntries newLevel.segments =
        unionPreferring z (allEntries (firstSegments levels ++ chosen)) := by
  obtain ⟨newLevel, target', bt', hround, hcontainer, hgood, hsmall, hentries⟩ :=
    compactRound_preferring z number hlevels hchosen bt htarget
  refine ⟨newLevel, bt', ?_, hcontainer, hgood, hentries⟩
  rw [Sst.CompactionBt.compactLoop, run_bind_ok hround]
  dsimp only
  rw [checkedAdd_ok hnumber, run_bind_ok (run_liftExec_ok ..), hsmall,
    run_bind_ok (run_liftExec_ok ..)]
  rfl

/-! ## What is kept -/

section
variable {levels : List Sst.PartitionedLevel} {chosen : List Sst.Segment} {key : String}

/-- INTERNAL: an entry is kept if it is still found. -/
theorem kept_iff {e : SsTableEntry} (hkey : e.key = key) : Kept levels chosen e ↔
    ∀ r, Newest (allEntries (firstSegments levels ++ chosen)) key r →
      r.or (lookupLevels key levels.tail) = some e := by
  subst hkey
  exact (forall_isNewest_or _ rfl _).symm

/-- INTERNAL: a key of which nothing is merged is found as before. -/
theorem newest_or_tail (hlevels : ∀ l ∈ levels, GoodLevel l)
    (habsent : ∀ f ∈ allEntries chosen, f.key ≠ key) {r : Option SsTableEntry}
    (hr : Newest (allEntries (firstSegments levels ++ chosen)) key r) :
    r.or (lookupLevels key levels.tail) = lookupLevels key levels := by
  rw [allEntries_append] at hr
  rw [newest_of_absent (firstSegments_nodup hlevels) hr habsent, or_lookup_tail]

/-- INTERNAL: any choice of the newest can be had from a merge. -/
theorem exists_preferring (e : SsTableEntry) {es : List SsTableEntry} {r : Option SsTableEntry}
    (hr : Newest es key r) : ∃ z, entryFor (unionPreferring z es) key = r := by
  cases r with
  | some z => exact ⟨z, union_preferred hr⟩
  | none =>
    refine ⟨e, ?_⟩
    have hnewest := union_newest e es key
    cases hentry : entryFor (unionPreferring e es) key with
    | none => rfl
    | some w =>
      rw [hentry] at hnewest
      exact absurd hnewest.2.1 (hr w hnewest.1)

end

/-- INTERNAL: a container without segments in level zero answers with what the levels have. -/
theorem get_of_empty_zero (targetSize : ℕ) {levels : List Sst.PartitionedLevel}
    (h : ∀ l ∈ levels, GoodLevel l) (key : String) :
    Sst.LevelContainer.get ⟨⟨[], targetSize⟩, levels⟩ key = .ok (lookupLevels key levels) :=
  getFromLevels_eq h key

/-! ## After a notification -/

section
variable {bt : Sst.CompactionBt} (h : GoodContainer bt.container)
include h

/-- INTERNAL: what is found after a notification.
SOURCE: compaction.rs:36-84, 212-224 -/
theorem notified_get {merge : Sst.Merge} (hmerge : MergesNewest merge) {fuel : ℕ}
    {referenced : Sst.Segment → Bool} {bt' : Sst.CompactionBt}
    (hrun : (Sst.CompactionBt.notified merge fuel referenced).run bt = .ok () bt') :
    ∃ chosen, bt.container.levelZero.segmentsToMerge = .ok chosen ∧
      (bt.container.partitionedLevels = [] →
        bt.container.levelZero.targetSize * bt.levelSizeFactor < 2 ^ 64) ∧
      ∀ key, ∃ r,
        Newest (allEntries (firstSegments bt.container.partitionedLevels ++ chosen)) key r ∧
        bt'.container.get key =
          .ok (r.or (lookupLevels key bt.container.partitionedLevels.tail)) := by
  obtain ⟨chosen, newLevels, bt₁, hchosen, hloop, hcontainer⟩ := notified_eq_ok hrun
  have hsubset := selectForMerge_subset hchosen
  obtain ⟨-, tail, hres, hgood, hlookup⟩ := compactLoop_ok hmerge h.levels
    (fun s hs => h.levelZero s (hsubset s hs)) hloop
  rw [List.nil_append] at hres
  subst hres
  refine ⟨chosen, hchosen, (compactLoop_starts hloop).2, fun key => ?_⟩
  obtain ⟨r, hr, htail⟩ := hlookup key
  refine ⟨r, hr, ?_⟩
  rw [hcontainer]
  show Sst.LevelContainer.get ⟨⟨[], _⟩, newLevels⟩ key = _
  rw [get_of_empty_zero _ hgood, htail]

/-- INTERNAL: a compaction that leaves lookups as they were has kept what level zero answers with.
SOURCE: compaction.rs:36-84, 212-224 -/
theorem kept_of_notified (hkeeps : NotifiedKeeps bt) {chosen : List Sst.Segment}
    (hchosen : bt.container.levelZero.segmentsToMerge = .ok chosen)
    (htarget : bt.container.partitionedLevels = [] →
      bt.container.levelZero.targetSize * bt.levelSizeFactor < 2 ^ 64)
    {key : String} {e : SsTableEntry} (hget : bt.container.levelZero.get key = .ok (some e)) :
    Kept bt.container.partitionedLevels chosen e := by
  obtain ⟨r₀, hzero, hnewest, hbefore⟩ := container_get h key
  rw [hget] at hzero
  cases hzero
  refine (kept_iff hnewest.2.1).mpr fun r hr => ?_
  obtain ⟨z, hz⟩ := exists_preferring e hr
  have hsubset := selectForMerge_subset hchosen
  obtain ⟨newLevel, bt₁, hloop, hcontainer, hgood, hentries⟩ := compactLoop_preferring z h.levels
    (fun s hs => h.levelZero s (hsubset s hs)) (show 1 + 1 < 2 ^ 64 by norm_num) bt htarget
  obtain ⟨bt', hrun, hcontainer'⟩ := notified_ok (fun _ => false) hchosen hloop
  have hafter := hkeeps _ (mergePreferring_newest z) _ _ _ hrun key
  have hall : ∀ l ∈ newLevel :: bt.container.partitionedLevels.tail, GoodLevel l := by
    intro l hl
    obtain rfl | hl := List.mem_cons.mp hl
    · exact hgood
    · exact h.levels l (List.mem_of_mem_tail hl)
  have hlookup : lookupLevels key (newLevel :: bt.container.partitionedLevels.tail) =
      r.or (lookupLevels key bt.container.partitionedLevels.tail) := by
    rw [← or_lookup_tail, List.tail_cons]
    show (entryFor (allEntries newLevel.segments) key).or _ = _
    rw [hentries, hz]
  have hget' := get_of_empty_zero bt₁.container.levelZero.targetSize hall key
  rw [hbefore, hcontainer'] at hafter
  rw [hlookup] at hget'
  exact Except.ok.inj (hget'.symm.trans hafter)

/-- A compaction after a notification leaves all lookups as they were, whatever newest-wins merges
do, exactly when every entry that level zero answers with is newer than the other versions among
the selected segments and the first level, or is not there and is what the other levels have.
SOURCE: compaction.rs:36-84, 212-224; level.rs:239-246, 298-312 -/
theorem notified_keeps_iff :
    NotifiedKeeps bt ↔ ∀ chosen, bt.container.levelZero.segmentsToMerge = .ok chosen →
      (bt.container.partitionedLevels = [] →
        bt.container.levelZero.targetSize * bt.levelSizeFactor < 2 ^ 64) →
      ∀ key e, bt.container.levelZero.get key = .ok (some e) →
        Kept bt.container.partitionedLevels chosen e := by
  constructor
  · intro hkeeps chosen hchosen htarget key e hget
    exact kept_of_notified h hkeeps hchosen htarget hget
  · intro hkept merge hmerge fuel referenced bt' hrun key
    obtain ⟨chosen, hchosen, htarget, hafter⟩ := notified_get h hmerge hrun
    obtain ⟨r₀, hzero, hnewest, hbefore⟩ := container_get h key
    obtain ⟨r, hr, hget⟩ := hafter key
    rw [hget, hbefore]
    cases r₀ with
    | none =>
      have habsent : ∀ f ∈ allEntries chosen, f.key ≠ key := by
        intro f hf
        obtain ⟨s, hs, hfs⟩ := mem_allEntries.mp hf
        exact hnewest f (mem_allEntries.mpr ⟨s, selectForMerge_subset hchosen s hs, hfs⟩)
      exact congrArg Except.ok (newest_or_tail h.levels habsent hr)
    | some e =>
      exact congrArg Except.ok ((kept_iff hnewest.2.1).mp (hkept chosen hchosen htarget key e hzero)
        r hr)

end

/-- INTERNAL: nothing is selected from a level within its target.
SOURCE: level.rs:298-312 -/
theorem selectForMerge_within {segments : List Sst.Segment} {size targetSize : ℕ}
    (hsize : Sst.totalSize segments = .ok size) (hle : size ≤ targetSize) :
    Sst.selectForMerge segments targetSize = .ok [] := by
  unfold Sst.selectForMerge
  rw [hsize, exec_ok_bind]
  dsimp only
  rw [Sst.selectLoop, if_neg (Nat.not_lt.mpr hle)]

/-- INTERNAL: level zero answers with an entry that is newer than all others of its key.
SOURCE: level.rs:278-296 -/
theorem get_of_wins {level : Sst.OverlappingLevel} (hwhole : ∀ s ∈ level.segments, Whole s)
    {e : SsTableEntry}
    (h : Wins SsTableEntry.key SsTableEntry.sequenceNumber (allEntries level.segments) e) :
    level.get e.key = .ok (some e) := by
  obtain ⟨r, hget, hnewest⟩ := overlapping_get hwhole e.key
  rw [hget, h.eq rfl hnewest]

/-- INTERNAL: a single entry is newer than all others. -/
theorem wins_singleton (e : SsTableEntry) :
    Wins SsTableEntry.key SsTableEntry.sequenceNumber [e] e :=
  ⟨List.mem_singleton_self e, fun _ hf _ hne => absurd (List.mem_singleton.mp hf) hne⟩

/-- INTERNAL: the entry of such a segment. -/
theorem oneKey_entries {levelNumber number sequenceNumber : ℕ} {key : String}
    (hlen : (asBytes key).length < 2 ^ 31) (hseq : sequenceNumber < 2 ^ 64) :
    allEntries [oneKey levelNumber number key sequenceNumber] =
      [⟨key, some "v", sequenceNumber⟩] := by
  rw [allEntries_singleton, entriesOf_eq (oneKey_stored hlen hseq)]

/-- INTERNAL: the entries of two segments. -/
theorem allEntries_pair {s t : Sst.Segment} {es fs : List SsTableEntry} (hs : Stored s es)
    (ht : Stored t fs) : allEntries [s, t] = es ++ fs := by
  rw [← entriesOf_eq hs, ← entriesOf_eq ht, ← allEntries_singleton t]
  rfl

/-- A wake-up while level zero is within its target empties it. -/
theorem notified_empties_levelZero :
    let bt : Sst.CompactionBt := ⟨⟨⟨[oneKey 0 1 "a" 1], 2 ^ 20⟩, []⟩, [], 10, Dir.empty⟩
    GoodContainer bt.container ∧ ¬NotifiedKeeps bt := by
  intro bt
  have hkey : (asBytes "a").length < 2 ^ 31 := by decide
  have hwhole : ∀ s ∈ bt.container.levelZero.segments, Whole s := by
    intro s hs
    rw [List.mem_singleton.mp hs]
    exact whole_of_stored (oneKey_stored hkey (by norm_num))
  have hgood : GoodContainer bt.container := ⟨hwhole, fun l hl => absurd hl List.not_mem_nil⟩
  refine ⟨hgood, fun hkeeps => ?_⟩
  have hsize : Sst.totalSize bt.container.levelZero.segments = .ok 35 := by decide
  have hchosen : bt.container.levelZero.segmentsToMerge = .ok [] :=
    selectForMerge_within hsize (by norm_num)
  have hentries : allEntries bt.container.levelZero.segments = [⟨"a", some "v", 1⟩] :=
    oneKey_entries hkey (by norm_num)
  have hget := get_of_wins hwhole (hentries ▸ wins_singleton ⟨"a", some "v", 1⟩)
  obtain hwins | ⟨-, hlookup⟩ := kept_of_notified hgood hkeeps hchosen (by norm_num) hget
  · exact absurd hwins.1 List.not_mem_nil
  · cases hlookup

/-- A version that was flushed twice, over the target by one segment. The older segment is selected,
and lookups do not miss the other one. -/
theorem notified_keeps_selected :
    NotifiedKeeps ⟨⟨⟨[oneKey 0 2 "a" 1, oneKey 0 4 "a" 1], 40⟩, []⟩, [], 10, Dir.empty⟩ := by
  have hkey : (asBytes "a").length < 2 ^ 31 := by decide
  have hfirst := @oneKey_stored 0 2 1 "a" hkey (by norm_num)
  have hsecond := @oneKey_stored 0 4 1 "a" hkey (by norm_num)
  have hwhole : ∀ s ∈ [oneKey 0 2 "a" 1, oneKey 0 4 "a" 1], Whole s := by
    intro s hs
    obtain rfl | rfl := List.mem_pair.mp hs
    · exact whole_of_stored hfirst
    · exact whole_of_stored hsecond
  have hgood : GoodContainer ⟨⟨[oneKey 0 2 "a" 1, oneKey 0 4 "a" 1], 40⟩, []⟩ :=
    ⟨hwhole, fun l hl => absurd hl List.not_mem_nil⟩
  refine (notified_keeps_iff hgood).mpr fun chosen hchosen _ key e hget => Or.inl ?_
  have hselect : Sst.selectForMerge [oneKey 0 2 "a" 1, oneKey 0 4 "a" 1] 40 =
      .ok [oneKey 0 2 "a" 1] := by
    decide
  cases hselect.symm.trans hchosen
  obtain ⟨r, hr, hnewest⟩ := @overlapping_get ⟨[oneKey 0 2 "a" 1, oneKey 0 4 "a" 1], 40⟩ hwhole key
  cases hget.symm.trans hr
  have hentry : e = ⟨"a", some "v", 1⟩ := by
    have hmem := hnewest.1
    rw [allEntries_pair hfirst hsecond] at hmem
    obtain hmem | hmem := List.mem_pair.mp hmem <;> exact hmem
  rw [firstSegments, List.nil_append, oneKey_entries hkey (by norm_num), hentry]
  exact wins_singleton _

end Rkvs.Analysis

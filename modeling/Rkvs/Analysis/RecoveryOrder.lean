import Rkvs.Analysis.RestartMerges
import Rkvs.Interface.ReadOrder

/-!
# The order of levels after a restart

A restart keeps the order of the levels if each of its merges is in its place. Where no number of a
level is left out, a merge that is not leaves a version behind for good.
-/

set_option autoImplicit false

namespace Rkvs.Analysis

open Rkvs.Library Rkvs.Model Rkvs.Interface

/-! ## The rounds of a restart -/

section
variable {levelZeroTargetSize levelSizeFactor sparsity fuel : ℕ} {merge : Sst.Merge}

/-- INTERNAL: the loop over the levels that were found is a run of rounds.
SOURCE: level.rs:189-203 -/
theorem run_of_recoverLevels {levels recovered res : List Sst.PartitionedLevel}
    {chosen selected : List Sst.Segment} {d d' : Dir}
    (h : (Sst.LevelContainer.recoverLevels merge levels chosen recovered).run d =
      .ok (res, selected) d') :
    ∃ steps, Run (RestartStep levelZeroTargetSize levelSizeFactor merge)
      ⟨levels, recovered, chosen, d⟩ steps ⟨[], res, selected, d'⟩ := by
  induction levels generalizing recovered chosen d with
  | nil =>
    cases h
    exact ⟨[], Run.nil⟩
  | cons level levels ih =>
    obtain ⟨newLevel, mid, chosen', hstep, hselects, hrest⟩ := recoverLevels_cons h
    obtain ⟨steps, hrun⟩ := ih hrest
    obtain ⟨rfl, rfl, rfl⟩ | ⟨hne, hmerge⟩ := hstep
    · exact ⟨_, (Run.single (.nothing hselects)).trans hrun⟩
    · exact ⟨_, (Run.single (.found hne hmerge hselects)).trans hrun⟩

/-- INTERNAL: so is the loop that adds levels.
SOURCE: level.rs:205-217 -/
theorem run_of_addLevels {recovered res : List Sst.PartitionedLevel} {selected : List Sst.Segment}
    {d d' : Dir} (h : (Sst.LevelContainer.addLevels levelZeroTargetSize levelSizeFactor merge fuel
      recovered selected).run d = .ok res d') :
    ∃ steps, Run (RestartStep levelZeroTargetSize levelSizeFactor merge)
      ⟨[], recovered, selected, d⟩ steps ⟨[], res, [], d'⟩ := by
  induction fuel generalizing recovered selected d with
  | zero =>
    cases selected with
    | nil =>
      cases h
      exact ⟨[], Run.nil⟩
    | cons s selected => cases h
  | succ fuel ih =>
    by_cases hne : selected = []
    · subst hne
      obtain ⟨rfl, rfl⟩ := addLevels_nil h
      exact ⟨[], Run.nil⟩
    · obtain ⟨more, targetSize, newLevel, mid, selected', hfuel, htarget, hmerge, hselects, hrest⟩ :=
        addLevels_cons hne h
      cases hfuel
      obtain ⟨steps, hrun⟩ := ih hrest
      exact ⟨_, (Run.single (.added hne htarget hmerge hselects)).trans hrun⟩

/-- A restart that returns goes through rounds.
SOURCE: level.rs:81-222 -/
theorem restartRun_of_fromDir {dir d' : Dir} {c : Sst.LevelContainer}
    (h : (Sst.LevelContainer.fromDir levelZeroTargetSize levelSizeFactor sparsity merge fuel).run
      dir = .ok c d') :
    ∃ steps, RestartRun levelZeroTargetSize levelSizeFactor sparsity merge dir steps d' := by
  obtain ⟨opened, d, hopen, hrest⟩ := fromDir_steps h
  obtain ⟨rfl, -, rfl⟩ | ⟨sorted, levels, recovered, res, chosen, selected, mid, hsteps, -⟩ := hrest
  · exact ⟨[], .empty hopen⟩
  · obtain ⟨found, hfound⟩ := @run_of_recoverLevels levelZeroTargetSize levelSizeFactor _ _ _ _ _ _
      _ _ hsteps.recovery
    obtain ⟨added, hadded⟩ := run_of_addLevels hsteps.added
    have hgroups := hsteps.grouping
    rw [hsteps.order] at hgroups
    refine ⟨found ++ added, .merges hopen hgroups hsteps.checked ?_ (hfound.trans hadded)⟩
    rw [← hsteps.choice, hsteps.order]
    rfl

end

/-! ## Where a restart begins -/

/-- INTERNAL: the order of the files depends on the segments in them. -/
theorem orderedFiles_congr {d d' : Dir} (h : ∀ s, s ∈ segmentsIn d' ↔ s ∈ segmentsIn d) :
    OrderedFiles d' ↔ OrderedFiles d := by
  have hsame : {s | s ∈ segmentsIn d'} = {s | s ∈ segmentsIn d} := Set.ext h
  unfold OrderedFiles
  rw [hsame]

/-- INTERNAL: where no number is left out, no number is above the number of levels. -/
theorem Grouped.number_le_length {levelZeroTargetSize levelSizeFactor : ℕ}
    {segments : List Sst.Segment} {levels : List Sst.PartitionedLevel}
    (h : Grouped levelZeroTargetSize levelSizeFactor segments levels)
    (hnoGaps : ∀ s ∈ segments, ∀ n, 0 < n → n < s.levelNumber →
      ∃ t ∈ segments, t.levelNumber = n) {level : Sst.PartitionedLevel} (hlevel : level ∈ levels) :
    level.levelNumber ≤ levels.length := by
  have hall : List.range' 1 level.levelNumber ⊆ levels.map Sst.PartitionedLevel.levelNumber := by
    intro n hn
    obtain ⟨hpos, hle⟩ := List.mem_range'_1.mp hn
    obtain ⟨s, hs, hnumber⟩ := h.inhabited level hlevel
    have hfound : ∃ t ∈ segments, t.levelNumber = n := by
      by_cases hlast : n = s.levelNumber
      · exact ⟨s, hs, hlast.symm⟩
      · exact hnoGaps s hs n hpos (by omega)
    obtain ⟨t, ht, htnumber⟩ := hfound
    obtain ⟨l, hl, hlnumber⟩ := h.complete t ht (htnumber ▸ hpos)
    exact List.mem_map.mpr ⟨l, hl, hlnumber.trans htnumber⟩
  have hlength := (List.subperm_of_subset List.nodup_range' hall).length_le
  rwa [List.length_range', List.length_map] at hlength

/-- INTERNAL: so they are all the numbers from one on. -/
theorem Grouped.numbered {levelZeroTargetSize levelSizeFactor : ℕ} {segments : List Sst.Segment}
    {levels : List Sst.PartitionedLevel}
    (h : Grouped levelZeroTargetSize levelSizeFactor segments levels)
    (hnoGaps : ∀ s ∈ segments, ∀ n, 0 < n → n < s.levelNumber →
      ∃ t ∈ segments, t.levelNumber = n) :
    levels.map Sst.PartitionedLevel.levelNumber = List.range' 1 levels.length := by
  have hsorted : (levels.map Sst.PartitionedLevel.levelNumber).Pairwise (· < ·) :=
    List.pairwise_map.mpr h.ascending
  have hsub : levels.map Sst.PartitionedLevel.levelNumber ⊆ List.range' 1 levels.length := by
    intro n hn
    obtain ⟨level, hlevel, rfl⟩ := List.mem_map.mp hn
    have hpos := h.positive level hlevel
    have hle := h.number_le_length hnoGaps hlevel
    exact List.mem_range'_1.mpr ⟨hpos, by omega⟩
  have hnodup := hsorted.imp fun hlt => hlt.ne
  have hperm := (List.subperm_of_subset hnodup hsub).perm_of_length_le (by simp)
  exact hperm.eq_of_pairwise (fun m n _ _ hmn hnm => absurd hmn hnm.asymm) hsorted
    List.pairwise_lt_range'

/-- INTERNAL: what a restart starts its rounds with. -/
structure RoundsFrom (levelZeroTargetSize : ℕ) (dir : Dir) (st : Restarting) : Prop where
  underway : Underway st
  same : ∀ s, s ∈ segmentsIn st.dir ↔ s ∈ segmentsIn dir
  first : st.recovered = []
  positive : ∀ l ∈ st.levels, 0 < l.levelNumber
  zero : ∀ s ∈ st.chosen, s.levelNumber = 0
  choice : (levelZeroIn dir levelZeroTargetSize).segmentsToMerge = .ok st.chosen
  gapless : NoGaps dir → Gapless st

section
variable {levelZeroTargetSize levelSizeFactor sparsity fuel : ℕ} {merge : Sst.Merge}

/-- INTERNAL: a restart that opens no file has nothing to do, and any other one starts its rounds.
SOURCE: level.rs:96-188 -/
theorem started_of_restartRun {dir d' : Dir} {steps : List (Restarting × Sst.PartitionedLevel)}
    (hwhole : ∀ s ∈ segmentsIn dir, Whole s)
    (h : RestartRun levelZeroTargetSize levelSizeFactor sparsity merge dir steps d') :
    (steps = [] ∧ segmentsIn dir = [] ∧ ∀ s, s ∈ segmentsIn d' ↔ s ∈ segmentsIn dir) ∨
      ∃ st recovered, RoundsFrom levelZeroTargetSize dir st ∧
        Run (RestartStep levelZeroTargetSize levelSizeFactor merge) st steps
          ⟨[], recovered, [], d'⟩ := by
  cases h with
  | empty opens =>
    obtain ⟨hopened, hsame⟩ := openSegments_eq_ok dir.distinct opens
    exact Or.inl ⟨rfl, hopened.symm, hsame⟩
  | @merges segments levelZeroSegments chosen levels recovered d d' steps opens groups checks selects
      run =>
    obtain ⟨hopened, hsame⟩ := openSegments_eq_ok dir.distinct opens
    have hopened : segments = segmentsIn dir := hopened
    subst hopened
    have hsorted := sorted_mergeSort Sst.Segment.levelNumber (segmentsIn dir)
    have hperm := List.mergeSort_perm (segmentsIn dir) fun s t => s.levelNumber ≤ t.levelNumber
    obtain ⟨levels', hgroup', hgrouped⟩ := @groupLoop_ok levelZeroTargetSize levelSizeFactor
      sparsity _ [] [] [] hsorted (fun t ht => absurd ht List.not_mem_nil)
      (groupLoop_targets hsorted groups)
    cases groups.symm.trans hgroup'
    rw [List.nil_append] at hgrouped run
    rw [List.nil_append] at selects
    have hmem : ∀ s n, s ∈ byNumber (ofLevel ((segmentsIn dir).mergeSort fun s t =>
        decide (s.levelNumber ≤ t.levelNumber)) n) ↔ s ∈ segmentsIn d ∧ s.levelNumber = n := by
      intro s n
      rw [mem_byNumber, mem_ofLevel, hperm.mem_iff, hsame s]
    have hchosen : ∀ s ∈ chosen, s ∈ segmentsIn d ∧ s.levelNumber = 0 := fun s hs =>
      (hmem s 0).mp (selectForMerge_subset selects s hs)
    refine Or.inr ⟨_, recovered, ⟨⟨fun s hs => hwhole s ((hsame s).mp hs), hgrouped.ascending,
      fun l hl s => ?_, fun s hs => (hchosen s hs).1, fun s hs l hl => ?_⟩, hsame, rfl,
      hgrouped.positive, fun s hs => (hchosen s hs).2, ?_, fun hnoGaps => ⟨?_, fun s hs => ?_⟩⟩, run⟩
    · rw [hgrouped.holds l hl]
      exact hmem s _
    · rw [(hchosen s hs).2]
      exact hgrouped.positive l hl
    · rw [← selects]
      rfl
    · apply hgrouped.numbered
      intro s hs n hpos hlt
      obtain ⟨t, ht, hnumber⟩ := hnoGaps s (hperm.mem_iff.mp hs) n hpos hlt
      exact ⟨t, hperm.mem_iff.mpr ht, hnumber⟩
    · exact (hchosen s hs).2.le

end

/-! ## A restart -/

section
variable {levelZeroTargetSize levelSizeFactor sparsity fuel : ℕ} {writes : Sst.PartitionedLevel →
  List Sst.Segment → EStateM Fault Dir (List Sst.Segment)} (hwrites : MergesIntoFiles writes)
  {st st' : Restarting} {steps : List (Restarting × Sst.PartitionedLevel)}
  (hrun : Run (RestartStep levelZeroTargetSize levelSizeFactor (Sst.PartitionedLevel.merge writes))
    st steps st')

include hwrites hrun

/-- INTERNAL: what is left behind is so when the rounds end. -/
theorem LeftBehind.run {u : Sst.Segment} {x : SsTableEntry} (hst : Underway st)
    (h : LeftBehind u x st) : LeftBehind u x st' := by
  have hstep : ∀ s a s', Underway s ∧ LeftBehind u x s → RestartStep levelZeroTargetSize
      levelSizeFactor (Sst.PartitionedLevel.merge writes) s a s' →
      Underway s' ∧ LeftBehind u x s' := by
    rintro s a s' ⟨hs, hbehind⟩ hnext
    obtain ⟨newLevel, out, hadvanced⟩ := advanced_of_step hwrites hs hnext
    exact ⟨hadvanced.underway hs, hbehind.next hs hadvanced⟩
  exact (hrun.invariant ⟨hst, h⟩ hstep).2.2

/-- INTERNAL: the files are in order in every round and at the end exactly if every merge is in its
place. -/
theorem ordered_throughout_iff (hst : Underway st) (hordered : OrderedFiles st.dir) :
    ((∀ p ∈ steps, OrderedFiles p.1.dir) ∧ OrderedFiles st'.dir) ↔
      ∀ p ∈ steps, InPlace p.1 p.2 := by
  apply @Run.good_iff _ _ _ _ _ _ (fun p => InPlace p.1 p.2)
    (fun s => Underway s ∧ OrderedFiles s.dir) (fun s => OrderedFiles s.dir) ⟨hst, hordered⟩
    (fun s hs => hs.2) _ _ hrun
  · rintro s level s' ⟨hs, hsordered⟩ hplace hnext
    obtain ⟨newLevel, out, hadvanced⟩ := advanced_of_step hwrites hs hnext
    exact ⟨hadvanced.underway hs, (hadvanced.ordered_iff hsordered).mpr hplace⟩
  · rintro s level s' ⟨hs, hsordered⟩ hnext hafter
    obtain ⟨newLevel, out, hadvanced⟩ := advanced_of_step hwrites hs hnext
    exact (hadvanced.ordered_iff hsordered).mp hafter

/-- INTERNAL: without gaps the order at the end is enough. The induction is on the run: the first
merge that is out of its place leaves a version behind. -/
theorem inPlace_of_ordered (hst : Underway st) (hgapless : Gapless st)
    (hordered : OrderedFiles st.dir) (hnothing : st'.chosen = []) (hafter : OrderedFiles st'.dir) :
    ∀ p ∈ steps, InPlace p.1 p.2 := by
  have hall : Underway st' ∧ Gapless st' ∧
      ((OrderedFiles st'.dir ∧ ∀ p ∈ steps, InPlace p.1 p.2) ∨
        ∃ u, ∃ x ∈ entriesOf u, LeftBehind u x st') := by
    clear hnothing hafter
    induction hrun with
    | nil => exact ⟨hst, hgapless, Or.inl ⟨hordered, fun p hp => absurd hp List.not_mem_nil⟩⟩
    | @snoc steps s level s' before step ih =>
      obtain ⟨hs, hsgapless, hcase⟩ := ih
      obtain ⟨newLevel, out, hadvanced⟩ := advanced_of_step hwrites hs step
      refine ⟨hadvanced.underway hs, hsgapless.next hs hadvanced, ?_⟩
      obtain ⟨hsordered, hplaces⟩ | ⟨u, x, hx, hbehind⟩ := hcase
      · by_cases hplace : InPlace s level
        · refine Or.inl ⟨(hadvanced.ordered_iff hsordered).mpr hplace, fun p hp => ?_⟩
          obtain hp | hp := List.mem_append.mp hp
          · exact hplaces p hp
          · rw [List.mem_singleton.mp hp]
            exact hplace
        · obtain ⟨u, x, hx, hbehind⟩ := hsgapless.leftBehind hs hadvanced hsordered hplace
          exact Or.inr ⟨u, x, hx, hbehind.next hs hadvanced⟩
      · exact Or.inr ⟨u, x, hx, hbehind.next hs hadvanced⟩
  obtain ⟨-, -, ⟨-, hplaces⟩ | ⟨u, x, hx, hbehind⟩⟩ := hall
  · exact hplaces
  · exact absurd hafter (hbehind.not_ordered hnothing hx)

end

section
variable {levelZeroTargetSize levelSizeFactor sparsity fuel : ℕ} {writes : Sst.PartitionedLevel →
  List Sst.Segment → EStateM Fault Dir (List Sst.Segment)} (hwrites : MergesIntoFiles writes)

include hwrites

/-- A restart leaves the files of an ordered directory in order after every one of its merges if and
only if every merge is in its place. Where no number of a level is left out the order at the end
already asks for that; in any directory it asks for a selection of what is oldest on level zero.
SOURCE: level.rs:81-222, 298-312 -/
theorem restart_keeps_order_iff {dir d' : Dir} {c : Sst.LevelContainer}
    (hwhole : ∀ s ∈ segmentsIn dir, Whole s) (hordered : OrderedFiles dir)
    (h : (Sst.LevelContainer.fromDir levelZeroTargetSize levelSizeFactor sparsity
      (Sst.PartitionedLevel.merge writes) fuel).run dir = .ok c d') :
    (∃ steps, RestartRun levelZeroTargetSize levelSizeFactor sparsity
      (Sst.PartitionedLevel.merge writes) dir steps d') ∧
    ∀ steps, RestartRun levelZeroTargetSize levelSizeFactor sparsity
        (Sst.PartitionedLevel.merge writes) dir steps d' →
      (((∀ p ∈ steps, OrderedFiles p.1.dir) ∧ OrderedFiles d') ↔ ∀ p ∈ steps, InPlace p.1 p.2) ∧
      (NoGaps dir → (OrderedFiles d' ↔ ∀ p ∈ steps, InPlace p.1 p.2)) ∧
      (OrderedFiles d' → OldestSelected dir levelZeroTargetSize) := by
  refine ⟨restartRun_of_fromDir h, fun steps hsteps => ?_⟩
  obtain ⟨rfl, hnone, hsame⟩ | ⟨st, recovered, hstart, hrun⟩ :=
    started_of_restartRun hwhole hsteps
  · have hafter := (orderedFiles_congr hsame).mpr hordered
    have hplaces : ∀ p ∈ ([] : List (Restarting × Sst.PartitionedLevel)), InPlace p.1 p.2 :=
      fun p hp => absurd hp List.not_mem_nil
    refine ⟨iff_of_true ⟨fun p hp => absurd hp List.not_mem_nil, hafter⟩ hplaces,
      fun _ => iff_of_true hafter hplaces, fun _ chosen _ s hs => ?_⟩
    rw [hnone] at hs
    exact absurd hs List.not_mem_nil
  · have hstordered := (orderedFiles_congr hstart.same).mpr hordered
    have hiff := ordered_throughout_iff hwrites hrun hstart.underway hstordered
    refine ⟨hiff, fun hnoGaps => ⟨?_, fun hplaces => (hiff.mpr hplaces).2⟩,
      fun hafter chosen hchoice u hu hzero hstays t ht x hx y hy hkey => ?_⟩
    · exact inPlace_of_ordered hwrites hrun hstart.underway (hstart.gapless hnoGaps) hstordered rfl
    · cases hstart.choice.symm.trans hchoice
      by_contra hle
      have hbehind : LeftBehind u x st := by
        refine ⟨(hstart.same u).mpr hu, hstays, hzero.trans_le (Nat.zero_le _), fun l hl => ?_, t,
          hstart.underway.selected t ht, Or.inr ht, y, hy, hkey.symm, not_lt.mp hle⟩
        rw [hzero]
        exact hstart.positive l hl
      exact (hbehind.run hwrites hrun hstart.underway).not_ordered rfl hx hafter

end

/-- A start that has nothing to merge in an ordered directory gives levels that reads can trust. -/
theorem layered_of_orderedFiles {levelZeroTargetSize levelSizeFactor sparsity fuel : ℕ}
    {merge : Sst.Merge} {dir d' : Dir} {c : Sst.LevelContainer}
    (hwhole : ∀ s ∈ segmentsIn dir, Whole s) (hordered : OrderedFiles dir)
    (hpart : ∀ n, 0 < n → Partitioned (ofLevel (segmentsIn dir) n))
    (hover : NoLevelOver levelZeroTargetSize levelSizeFactor (segmentsIn dir))
    (h : (Sst.LevelContainer.fromDir levelZeroTargetSize levelSizeFactor sparsity merge fuel).run
      dir = .ok c d') : Layered c := by
  obtain ⟨opened, d, hopen, hrest⟩ := fromDir_steps h
  obtain ⟨hopened, -⟩ := openSegments_eq_ok dir.distinct hopen
  have hopened : opened = segmentsIn dir := hopened
  subst hopened
  obtain ⟨-, rfl, -⟩ | ⟨sorted, levels, recovered, res, chosen, selected, mid, hsteps, rfl⟩ := hrest
  · refine ⟨fun s hs => ?_, fun level hlevel => absurd hlevel List.not_mem_nil,
      List.pairwise_singleton ..⟩
    exact absurd hs List.not_mem_nil
  · obtain ⟨rfl, rfl⟩ := (selects_nothing_iff hsteps).mp hover
    obtain ⟨rfl, -⟩ := unchanged_of_selects_nothing hsteps
    have hmem : ∀ s n, s ∈ byNumber (ofLevel sorted n) →
        s ∈ segmentsIn dir ∧ s.levelNumber = n := by
      intro s n hs
      obtain ⟨hs, hnumber⟩ := mem_ofLevel.mp (mem_byNumber.mp hs)
      exact ⟨hsteps.perm.mem_iff.mp hs, hnumber⟩
    have hlevel : ∀ level ∈ res, ∀ s ∈ level.segments,
        s ∈ segmentsIn dir ∧ s.levelNumber = level.levelNumber := by
      intro level hlevel s hs
      rw [hsteps.grouped.holds level hlevel] at hs
      exact hmem s _ hs
    have hnewer : ∀ l l' : List Sst.Segment, ∀ m n, m < n →
        (∀ s ∈ l, s ∈ segmentsIn dir ∧ s.levelNumber = m) →
        (∀ s ∈ l', s ∈ segmentsIn dir ∧ s.levelNumber = n) →
        NewerThan SsTableEntry.key SsTableEntry.sequenceNumber (allEntries l) (allEntries l') := by
      intro l l' m n hlt hl hl' e he f hf
      obtain ⟨s, hs, hes⟩ := mem_allEntries.mp he
      obtain ⟨t, ht, hft⟩ := mem_allEntries.mp hf
      obtain ⟨hsd, hsm⟩ := hl s hs
      obtain ⟨htd, htn⟩ := hl' t ht
      exact hordered s hsd t htd (by omega) e hes f hft
    refine ⟨fun s hs => ranged_of_whole (hwhole s ?_), fun level hmem' => ?_, ?_⟩
    · obtain hs | hs := List.mem_append.mp hs
      · exact (hmem s 0 hs).1
      · obtain ⟨level, hl, hs⟩ := List.mem_flatMap.mp hs
        exact (hlevel level hl s hs).1
    · rw [hsteps.grouped.holds level hmem']
      refine (List.Perm.pairwise_iff overlaps_symm ?_).mpr
        (hpart _ (hsteps.grouped.positive level hmem'))
      exact (List.mergeSort_perm ..).trans (hsteps.perm.filter _)
    · refine List.pairwise_cons.mpr ⟨fun l hl => ?_, List.pairwise_map.mpr ?_⟩
      · obtain ⟨level, hin, rfl⟩ := List.mem_map.mp hl
        exact hnewer _ _ 0 _ (hsteps.grouped.positive level hin) (fun s hs => hmem s 0 hs)
          (hlevel level hin)
      · refine hsteps.grouped.ascending.imp_of_mem fun hl hm hlt => ?_
        exact hnewer _ _ _ _ hlt (hlevel _ hl) (hlevel _ hm)

/-! ## The version that was moved away -/

/-- A segment with a version of a key, which its index has. -/
def indexedVersion (filepath : String) (levelNumber number : ℕ) (key : String)
    (sequenceNumber : ℕ) : Sst.Segment :=
  let entry : SsTableEntry := ⟨key, some "v", sequenceNumber⟩
  { segmentHolding filepath levelNumber number [entry] with
    file := segmentBytes [entry] [⟨key, 0⟩]
    index := ⟨[⟨key, 0⟩], 12 + (asBytes key).length⟩
    size := (segmentBytes [entry] [⟨key, 0⟩]).length }

/-- INTERNAL: such a segment holds its one entry. -/
theorem indexedVersion_stored {filepath : String} {levelNumber number sequenceNumber : ℕ}
    {key : String} (hlen : (asBytes key).length < 2 ^ 31) (hseq : sequenceNumber < 2 ^ 64) :
    Stored (indexedVersion filepath levelNumber number key sequenceNumber)
      [⟨key, some "v", sequenceNumber⟩] := by
  have h := @oneEntry_stored filepath levelNumber number sequenceNumber key hlen hseq
  refine ⟨h.ascending, h.fits, ⟨_, ?_, List.append_assoc ..⟩, h.dataEnd, List.Sublist.refl _,
    h.first, h.last⟩
  simp [Sst.footerToBytes, Sst.MAGIC_BYTES]

/-- INTERNAL: and no other one. -/
theorem entriesOf_indexedVersion {filepath : String} {levelNumber number sequenceNumber : ℕ}
    {key : String} (hlen : (asBytes key).length < 2 ^ 31) (hseq : sequenceNumber < 2 ^ 64) :
    entriesOf (indexedVersion filepath levelNumber number key sequenceNumber) =
      [⟨key, some "v", sequenceNumber⟩] :=
  entriesOf_eq (indexedVersion_stored hlen hseq)

/-- INTERNAL: a merge of one version into another file. -/
theorem indexedVersion_merged {path path' : String} {level level' number number' seq : ℕ}
    {key : String} (hlen : (asBytes key).length < 2 ^ 31) (hseq : seq < 2 ^ 64) :
    MergedFiles [indexedVersion path level number key seq]
      [indexedVersion path' level' number' key seq] := by
  have hins := @entriesOf_indexedVersion path level number seq key hlen hseq
  have hout := @entriesOf_indexedVersion path' level' number' seq key hlen hseq
  refine ⟨fun s hs => ?_, ?_, fun k => ?_⟩
  · rw [List.mem_singleton.mp hs]
    exact whole_of_stored (indexedVersion_stored hlen hseq)
  · rw [allEntries_singleton, hout]
    exact List.pairwise_singleton ..
  · have hnodup : ([(⟨key, some "v", seq⟩ : SsTableEntry)].map SsTableEntry.key).Nodup :=
      List.nodup_singleton _
    rw [allEntries_singleton, allEntries_singleton, hins, hout]
    exact isNewest_find hnodup k

/-- INTERNAL: a file that is put under a new name. -/
theorem wroteNew_put {level : Sst.PartitionedLevel} {d : Dir} {s : Sst.Segment}
    (hlevel : s.levelNumber = level.levelNumber) (hnew : s.filepath ∉ d.names)
    (hopen : Sst.Segment.fromFile (d.put s.filepath s.file) s.filepath = .ok (.ok s)) :
    WroteNew level d [s] (d.put s.filepath s.file) where
  level t ht := by rwa [List.mem_singleton.mp ht]
  opened t ht := by rwa [List.mem_singleton.mp ht]
  fresh t ht u hu hsame := by
    rw [List.mem_singleton.mp ht] at hsame
    exact hnew (hsame ▸ filepath_of_mem_segmentsIn hu)
  others name hname := by
    have hne := hname s (List.mem_singleton_self _)
    refine ⟨?_, Dir.content_put_of_ne hne.symm⟩
    rw [Dir.mem_names_put]
    exact or_iff_right hne.symm

/-- INTERNAL: the writing of one merge, and of no other. -/
def writesOnly (level₀ : Sst.PartitionedLevel) (ins₀ : List Sst.Segment) (d₀ : Dir)
    (level : Sst.PartitionedLevel) (ins : List Sst.Segment) :
    EStateM Fault Dir (List Sst.Segment) := do
  let d ← MonadState.get
  if level = level₀ ∧ ins = ins₀ ∧ d.files = d₀.files ∧ d.faults = d₀.faults then
    Sst.mergeAndWrite (fun _ => frontFirst) 9 level ins
  else throw .panic

/-- INTERNAL: a merge that does one run of the real one merges into files as that one does. -/
theorem writesOnly_mergesIntoFiles {level₀ : Sst.PartitionedLevel} {ins₀ out₀ : List Sst.Segment}
    {d₀ d₁ : Dir}
    (hrun : (Sst.mergeAndWrite (fun _ => frontFirst) 9 level₀ ins₀).run d₀ = .ok out₀ d₁)
    (hmerged : MergedFiles ins₀ out₀) (hnew : WroteNew level₀ d₀ out₀ d₁) :
    MergesIntoFiles (writesOnly level₀ ins₀ d₀) := by
  have hall : ∀ level ins d out d', (writesOnly level₀ ins₀ d₀ level ins).run d = .ok out d' →
      MergedFiles ins out ∧ WroteNew level d out d' := by
    intro level ins d out d' h
    unfold writesOnly at h
    rw [run_bind_ok (EStateM.run_get d)] at h
    by_cases hsame : level = level₀ ∧ ins = ins₀ ∧ d.files = d₀.files ∧ d.faults = d₀.faults
    · rw [if_pos hsame] at h
      obtain ⟨rfl, rfl, hfiles, hfaults⟩ := hsame
      obtain rfl : d = d₀ := Dir.ext hfiles hfaults
      cases hrun.symm.trans h
      exact ⟨hmerged, hnew⟩
    · rw [if_neg hsame] at h
      cases h
  exact ⟨fun level ins d out d' _ h => (hall level ins d out d' h).1,
    fun level ins d out d' _ h => (hall level ins d out d' h).2⟩

/-- INTERNAL: the second of the files, with a newer version of the key. -/
def secondVersion : Sst.Segment := indexedVersion "0000000000000002.sst" 0 2 "a" 2

/-- INTERNAL: what a merge into level one makes of it. -/
def movedVersion : Sst.Segment := indexedVersion "0000000100000001.sst" 1 1 "a" 2

/-- INTERNAL: three files of level zero, of which the second is selected. -/
def threeFiles (firstKey lastKey : String) : Dir :=
  dirHolding [indexedVersion "0000000000000001.sst" 0 1 firstKey 1, secondVersion,
    indexedVersion "0000000000000003.sst" 0 3 lastKey 3] (by
      show ["0000000000000001.sst", "0000000000000002.sst", "0000000000000003.sst"].Nodup
      decide)

/-- INTERNAL: the merge of the second version into a new level one. -/
def movesSecond (d : Dir) : Sst.PartitionedLevel → List Sst.Segment →
    EStateM Fault Dir (List Sst.Segment) :=
  writesOnly (.new 312 1) [secondVersion] d

/-- INTERNAL: one level that is added is enough if it is within its target.
SOURCE: level.rs:206-217 -/
theorem addLevels_once {t f fuel targetSize : ℕ} {merge : Sst.Merge}
    {recovered : List Sst.PartitionedLevel} {newLevel : Sst.PartitionedLevel}
    {selected : List Sst.Segment} {d d' : Dir} (hne : selected ≠ [])
    (htarget : Sst.LevelContainer.levelTargetSize t f (recovered.length + 1) = .ok targetSize)
    (hmerge : (Sst.LevelContainer.mergeAndRemove merge (.new targetSize (recovered.length + 1))
      selected).run d = .ok newLevel d')
    (hnothing : newLevel.segmentsToMerge = .ok []) :
    (Sst.LevelContainer.addLevels t f merge (fuel + 1) recovered selected).run d =
      .ok (recovered ++ [newLevel]) d' := by
  obtain ⟨s, selected, rfl⟩ := List.exists_cons_of_ne_nil hne
  simp only [Sst.LevelContainer.addLevels]
  rw [htarget, run_bind_ok (run_liftExec_ok ..), run_bind_ok hmerge, hnothing,
    run_bind_ok (run_liftExec_ok ..)]
  cases fuel <;> rfl

/-- INTERNAL: sorting leaves what is sorted. -/
theorem mergeSort_eq_self {f : Sst.Segment → ℕ} {segments : List Sst.Segment}
    (h : segments.Pairwise fun s t => f s ≤ f t) :
    (segments.mergeSort fun s t => f s ≤ f t) = segments :=
  List.mergeSort_of_pairwise (h.imp decide_eq_true)

section
variable {d : Dir} (hzero : ∀ s ∈ segmentsIn d, s.levelNumber = 0)
  (hsorted : (segmentsIn d).Pairwise fun s t => s.number ≤ t.number)

include hzero

/-- INTERNAL: files of level zero make up level zero, and no other level is found. -/
theorem groupLoop_levelZero {t f sparsity : ℕ} :
    Sst.LevelContainer.groupLoop t f sparsity
      ((segmentsIn d).mergeSort fun s t => s.levelNumber ≤ t.levelNumber) [] [] [] =
        .ok (segmentsIn d, []) := by
  have hlevels : (segmentsIn d).Pairwise fun s t => s.levelNumber ≤ t.levelNumber :=
    List.pairwise_of_forall_mem_list fun s hs t ht => (hzero s hs).trans_le (Nat.zero_le _)
  obtain ⟨levels, hgroup, hgrouped⟩ := @groupLoop_ok t f sparsity (segmentsIn d) [] [] [] hlevels
    (fun s hs => absurd hs List.not_mem_nil) fun s hs hpos => by
      rw [hzero s hs] at hpos
      exact absurd hpos (lt_irrefl 0)
  have hnone : levels = [] := by
    refine List.eq_nil_iff_forall_not_mem.mpr fun level hlevel => ?_
    obtain ⟨s, hs, hnumber⟩ := hgrouped.inhabited level hlevel
    have hpos := hgrouped.positive level hlevel
    rw [← hnumber, hzero s hs] at hpos
    exact lt_irrefl 0 hpos
  subst hnone
  rw [mergeSort_eq_self hlevels]
  rwa [List.nil_append, List.nil_append, ofLevel_eq_self hzero] at hgroup

include hsorted

/-- INTERNAL: a restart then goes on with new levels for what is selected there. -/
theorem fromDir_levelZero {t f sparsity fuel : ℕ} {merge : Sst.Merge} {d' : Dir}
    {chosen : List Sst.Segment} {res : List Sst.PartitionedLevel}
    (hcomplete : CompleteFiles d) (hne : segmentsIn d ≠ [])
    (hchosen : Sst.selectForMerge (segmentsIn d) t = .ok chosen)
    (hadd : (Sst.LevelContainer.addLevels t f merge fuel [] chosen).run d = .ok res d') :
    (Sst.LevelContainer.fromDir t f sparsity merge fuel).run d =
      .ok ⟨⟨segmentsIn d, t⟩, res⟩ d' := by
  have hopen : (Sst.LevelContainer.openSegments d.names).run d = .ok (segmentsIn d) d :=
    openSegments_complete hcomplete
  unfold Sst.LevelContainer.fromDir
  rw [run_bind_ok (EStateM.run_get d), run_bind_ok hopen, if_neg hne]
  dsimp only
  rw [groupLoop_levelZero hzero, run_bind_ok (run_liftExec_ok ..)]
  dsimp only
  rw [mergeSort_eq_self hsorted]
  show ((liftExec (Sst.selectForMerge (segmentsIn d) t) >>= _ :
    EStateM Fault Dir Sst.LevelContainer)).run d = _
  rw [hchosen, run_bind_ok (run_liftExec_ok ..)]
  exact run_bind_ok hadd

/-- INTERNAL: in rounds of its own. -/
theorem restartRun_levelZero {t f sparsity : ℕ} {merge : Sst.Merge} {d' : Dir}
    {chosen : List Sst.Segment} {recovered : List Sst.PartitionedLevel}
    {steps : List (Restarting × Sst.PartitionedLevel)} (hcomplete : CompleteFiles d)
    (hchosen : Sst.selectForMerge (segmentsIn d) t = .ok chosen)
    (hrun : Run (RestartStep t f merge) ⟨[], [], chosen, d⟩ steps ⟨[], recovered, [], d'⟩) :
    RestartRun t f sparsity merge d steps d' := by
  refine .merges (openSegments_complete hcomplete) (groupLoop_levelZero hzero) rfl ?_ hrun
  rw [mergeSort_eq_self hsorted]
  exact hchosen

end

/-- INTERNAL: a restart that merges into level one. -/
def restartMoving (d : Dir) : EStateM Fault Dir Sst.LevelContainer :=
  Sst.LevelContainer.fromDir 104 3 1 (Sst.PartitionedLevel.merge (movesSecond d)) 2

/-- INTERNAL: the files after it. -/
def movedFiles (firstKey lastKey : String) : Dir :=
  dirAfter (Sst.LevelContainer.mergeAndRemove (Sst.PartitionedLevel.merge
    (movesSecond (threeFiles firstKey lastKey))) (.new 312 1) [secondVersion])
      (threeFiles firstKey lastKey)

/-- INTERNAL: level one is within its target then. -/
theorem movedVersion_within :
    Sst.PartitionedLevel.segmentsToMerge ⟨[movedVersion], 312, 1, 1⟩ = .ok [] := by
  decide

/-- INTERNAL: the three files, with what can be computed about them. -/
structure ThreeFiles (firstKey lastKey : String) : Prop where
  keys : (asBytes firstKey).length = 1 ∧ (asBytes lastKey).length = 1
  segments : segmentsIn (threeFiles firstKey lastKey) =
    [indexedVersion "0000000000000001.sst" 0 1 firstKey 1, secondVersion,
      indexedVersion "0000000000000003.sst" 0 3 lastKey 3]
  selected : Sst.selectForMerge (segmentsIn (threeFiles firstKey lastKey)) 104 =
    .ok [secondVersion]
  writes : resultOf (Sst.mergeAndWrite (fun _ => frontFirst) 9 (.new 312 1) [secondVersion])
    (threeFiles firstKey lastKey) = some [movedVersion]
  placed : (dirAfter (Sst.mergeAndWrite (fun _ => frontFirst) 9 (.new 312 1) [secondVersion])
    (threeFiles firstKey lastKey)).files =
      ((threeFiles firstKey lastKey).put movedVersion.filepath movedVersion.file).files
  calm : (dirAfter (Sst.mergeAndWrite (fun _ => frontFirst) 9 (.new 312 1) [secondVersion])
    (threeFiles firstKey lastKey)).faults = []
  opened : Sst.Segment.fromFile
    ((threeFiles firstKey lastKey).put movedVersion.filepath movedVersion.file)
      movedVersion.filepath = .ok (.ok movedVersion)
  merged : resultOf (Sst.LevelContainer.mergeAndRemove
    (Sst.PartitionedLevel.merge (movesSecond (threeFiles firstKey lastKey))) (.new 312 1)
      [secondVersion]) (threeFiles firstKey lastKey) = some ⟨[movedVersion], 312, 1, 1⟩

namespace ThreeFiles

variable {firstKey lastKey : String} (h : ThreeFiles firstKey lastKey)

include h

/-- INTERNAL: what holds of each of the three segments. -/
theorem forall_mem {P : Sst.Segment → Prop}
    (hfirst : P (indexedVersion "0000000000000001.sst" 0 1 firstKey 1)) (hsecond : P secondVersion)
    (hlast : P (indexedVersion "0000000000000003.sst" 0 3 lastKey 3)) :
    ∀ s ∈ segmentsIn (threeFiles firstKey lastKey), P s := by
  rw [h.segments]
  simp only [List.forall_mem_cons, List.not_mem_nil, false_imp_iff, implies_true, and_true]
  exact ⟨hfirst, hsecond, hlast⟩

/-- INTERNAL: the segments are whole. -/
theorem whole : ∀ s ∈ segmentsIn (threeFiles firstKey lastKey), Whole s := by
  obtain ⟨hfirst, hlast⟩ := h.keys
  refine @forall_mem _ _ h Whole ?_ ?_ ?_
  · exact whole_of_stored (indexedVersion_stored (by omega) (by norm_num))
  · exact whole_of_stored (indexedVersion_stored (by decide) (by norm_num))
  · exact whole_of_stored (indexedVersion_stored (by omega) (by norm_num))

/-- INTERNAL: they are on level zero. -/
theorem levelZero : ∀ s ∈ segmentsIn (threeFiles firstKey lastKey), s.levelNumber = 0 :=
  h.forall_mem rfl rfl rfl

/-- INTERNAL: one level alone is in order. -/
theorem ordered : OrderedFiles (threeFiles firstKey lastKey) := by
  intro s hs t ht hlt
  rw [h.levelZero s hs, h.levelZero t ht] at hlt
  exact absurd hlt (lt_irrefl _)

/-- INTERNAL: they come by their numbers. -/
theorem sorted : (segmentsIn (threeFiles firstKey lastKey)).Pairwise
    fun s t => s.number ≤ t.number := by
  rw [h.segments]
  refine List.Pairwise.of_map Sst.Segment.number (fun _ _ hle => hle) ?_
  show [1, 2, 3].Pairwise (· ≤ ·)
  decide

/-- INTERNAL: the merge of the second file merges into files. -/
theorem moves : MergesIntoFiles (movesSecond (threeFiles firstKey lastKey)) := by
  have hnew : movedVersion.filepath ∉ (threeFiles firstKey lastKey).names := by
    show "0000000100000001.sst" ∉
      ["0000000000000001.sst", "0000000000000002.sst", "0000000000000003.sst"]
    decide
  have hrun := run_of_result h.writes
  rw [Dir.ext h.placed h.calm] at hrun
  exact writesOnly_mergesIntoFiles hrun
    (indexedVersion_merged (by decide) (by norm_num)) (wroteNew_put rfl hnew h.opened)

/-- INTERNAL: no file is incomplete. -/
theorem complete : CompleteFiles (threeFiles firstKey lastKey) := by
  intro name hname
  have hnames : (threeFiles firstKey lastKey).names =
      (segmentsIn (threeFiles firstKey lastKey)).map Sst.Segment.filepath := by
    rw [h.segments]
    rfl
  rw [hnames] at hname
  obtain ⟨s, hs, rfl⟩ := List.mem_map.mp hname
  exact ⟨s, mem_segmentsIn.mp hs⟩

/-- INTERNAL: what a restart makes of the three files. -/
theorem run : (restartMoving (threeFiles firstKey lastKey)).run (threeFiles firstKey lastKey) =
    .ok ⟨⟨segmentsIn (threeFiles firstKey lastKey), 104⟩, [⟨[movedVersion], 312, 1, 1⟩]⟩
      (movedFiles firstKey lastKey) := by
  apply fromDir_levelZero h.levelZero h.sorted h.complete _ h.selected
  · exact addLevels_once (List.cons_ne_nil _ _) rfl (run_of_result h.merged) movedVersion_within
  · rw [h.segments]
    exact List.cons_ne_nil _ _

/-- INTERNAL: the restart has one round. -/
theorem rounds : RestartRun 104 3 1
    (Sst.PartitionedLevel.merge (movesSecond (threeFiles firstKey lastKey)))
    (threeFiles firstKey lastKey)
    [(⟨[], [], [secondVersion], threeFiles firstKey lastKey⟩, .new 312 1)]
    (movedFiles firstKey lastKey) := by
  apply restartRun_levelZero h.levelZero h.sorted h.complete h.selected
  exact Run.single (.added (List.cons_ne_nil _ _) rfl (run_of_result h.merged) movedVersion_within)

end ThreeFiles

/-- INTERNAL: the second file holds the newest version of its key there. -/
theorem keptFiles : ThreeFiles "b" "a" := by
  constructor <;> decide +kernel

/-- INTERNAL: the third file holds a newer version of the key there. -/
theorem lostFiles : ThreeFiles "a" "b" := by
  constructor <;> decide +kernel

/-- INTERNAL: the entry of the second file. -/
theorem entriesOf_secondVersion : entriesOf secondVersion = [⟨"a", some "v", 2⟩] :=
  entriesOf_indexedVersion (by decide) (by norm_num)

/-- The version that stays in level zero is newer than the one that is moved away. -/
theorem restart_keeps_order_newer : ∃ c d',
    (restartMoving (threeFiles "b" "a")).run (threeFiles "b" "a") = .ok c d' ∧
      OrderedFiles d' := by
  have h := keptFiles
  obtain ⟨hfirst, hlast⟩ := h.keys
  refine ⟨_, _, h.run, ?_⟩
  have hiff := (restart_keeps_order_iff h.moves h.whole h.ordered h.run).2 _ h.rounds
  apply (hiff.1.mpr _).2
  intro p hp
  rw [List.mem_singleton.mp hp]
  have hread : ∀ t ∈ touchedBy (.new 312 1) [secondVersion] ++ [secondVersion], t = secondVersion :=
    fun t ht => List.mem_singleton.mp ht
  refine ⟨fun s hs hstays _ t ht => ?_, fun s hs _ hlt => ?_⟩
  · rw [hread t ht, entriesOf_secondVersion]
    revert hstays
    revert s
    refine h.forall_mem ?_ ?_ ?_
    · intro _ _
      rw [entriesOf_indexedVersion (by omega) (by norm_num)]
      intro e he f hf hkey
      cases List.mem_singleton.mp he
      cases List.mem_singleton.mp hf
      exact absurd hkey (by decide)
    · exact fun _ hstays => absurd (List.mem_singleton_self _) hstays
    · intro _ _
      rw [entriesOf_indexedVersion (by omega) (by norm_num)]
      intro e he f hf _
      cases List.mem_singleton.mp he
      cases List.mem_singleton.mp hf
      decide
  · rw [h.levelZero s hs] at hlt
    exact absurd hlt (Nat.not_lt_zero _)

/-- Level zero is over its target of 104 bytes by one of three segments. The second one is selected,
and the older version of its key in the first one stays in front of it.
SOURCE: level.rs:188-217, 298-312 -/
theorem newer_version_moves_away :
    ¬∀ (t f sparsity fuel : ℕ) (writes : Sst.PartitionedLevel → List Sst.Segment →
        EStateM Fault Dir (List Sst.Segment)) (dir d' : Dir) (c : Sst.LevelContainer),
      MergesIntoFiles writes → (∀ s ∈ segmentsIn dir, Whole s) → OrderedFiles dir →
      (Sst.LevelContainer.fromDir t f sparsity (Sst.PartitionedLevel.merge writes) fuel).run dir =
        .ok c d' → OrderedFiles d' := by
  intro hclaim
  have h := lostFiles
  have hordered := hclaim _ _ _ _ _ _ _ _ h.moves h.whole h.ordered h.run
  have hfirst : indexedVersion "0000000000000001.sst" 0 1 "a" 1 ∈ segmentsIn (movedFiles "a" "b") := by
    decide
  have hmoved : movedVersion ∈ segmentsIn (movedFiles "a" "b") := by
    decide
  have hnewer := hordered _ hfirst _ hmoved Nat.one_pos
  unfold movedVersion at hnewer
  rw [entriesOf_indexedVersion (by decide) (by norm_num),
    entriesOf_indexedVersion (by decide) (by norm_num)] at hnewer
  have hlt := hnewer _ (List.mem_singleton_self _) _ (List.mem_singleton_self _) rfl
  exact absurd hlt (by decide)

end Rkvs.Analysis

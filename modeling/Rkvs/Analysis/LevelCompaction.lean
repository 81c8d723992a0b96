import Rkvs.Analysis.CompactionLookups

/-!
# Compaction of the partitioned levels

The first level that is over its target is taken out as a whole, but only what is selected from it
is merged into the level behind it.
-/

set_option autoImplicit false

namespace Rkvs.Analysis

open Rkvs.Library Rkvs.Model Rkvs.Interface

/-- INTERNAL: the levels are split, none is lost.
SOURCE: compaction.rs:142-168 -/
theorem find_split {levels front toCompact : List Sst.PartitionedLevel}
    (h : Sst.CompactionBt.findPartitionedLevelsToCompact levels = .ok (front, toCompact)) :
    levels = front ++ toCompact := by
  induction levels generalizing front with
  | nil =>
    cases h
    rfl
  | cons level levels ih =>
    obtain ⟨big, -, h⟩ := exec_bind_eq_ok.mp h
    cases big with
    | true =>
      cases h
      rfl
    | false =>
      obtain ⟨⟨front', toCompact'⟩, hrest, h⟩ := exec_bind_eq_ok.mp h
      cases h
      rw [ih hrest]
      rfl

/-- INTERNAL: what a container has, level by level.
SOURCE: sstable.rs:61-86 -/
theorem get_of_split {c : Sst.LevelContainer} (h : GoodContainer c)
    {front behind : List Sst.PartitionedLevel} {first : Sst.PartitionedLevel}
    (hlevels : c.partitionedLevels = front ++ first :: behind) (key : String) :
    ∃ r₀, c.levelZero.get key = .ok r₀ ∧
      c.get key = .ok (r₀.or ((lookupLevels key front).or
        ((entryFor (allEntries first.segments) key).or (lookupLevels key behind)))) := by
  obtain ⟨r₀, hzero, -, hget⟩ := container_get h key
  refine ⟨r₀, hzero, ?_⟩
  rw [hget, hlevels, lookupLevels_append, ← or_lookup_tail key (first :: behind)]
  rfl

section
variable {bt : Sst.CompactionBt} (h : GoodContainer bt.container)
include h

/-- INTERNAL: what is found after a compaction without a notification.
SOURCE: compaction.rs:90-168, 225-235 -/
theorem timedOut_get {merge : Sst.Merge} (hmerge : MergesNewest merge) {fuel : ℕ}
    {referenced : Sst.Segment → Bool} {bt' : Sst.CompactionBt}
    (hrun : (Sst.CompactionBt.timedOut merge fuel referenced).run bt = .ok () bt') :
    (∀ key, bt'.container.get key = bt.container.get key) ∨
      ∃ front first behind chosen, StartsAt bt front first behind chosen ∧
        ∀ key, ∃ r r₀, Newest (allEntries (firstSegments behind ++ chosen)) key r ∧
          bt.container.levelZero.get key = .ok r₀ ∧
          bt'.container.get key = .ok (r₀.or ((lookupLevels key front).or
            (r.or (lookupLevels key behind.tail)))) := by
  obtain ⟨bt₀, front, toCompact, newLevels, bt₁, hsame, hfactor, hsplit, hcompact, hcontainer⟩ :=
    timedOut_eq_ok hrun
  have hlevels := find_split hsplit
  cases toCompact with
  | nil =>
    cases hcompact
    refine Or.inl fun key => ?_
    rw [hcontainer, hsame, ← hlevels]
    rfl
  | cons first behind =>
    have hgood : ∀ l ∈ front ++ first :: behind, GoodLevel l := hlevels ▸ h.levels
    have hfirst : GoodLevel first := hgood first (by simp)
    obtain ⟨chosen, _, hselect, hcount⟩ := run_bind_eq_ok hcompact
    obtain ⟨hchosen, rfl⟩ := run_liftExec_eq_ok hselect
    obtain ⟨number, _, hnumber, hloop⟩ := run_bind_eq_ok hcount
    obtain ⟨hadd, rfl⟩ := run_liftExec_eq_ok hnumber
    have hnext : number = first.levelNumber + 1 := by
      unfold checkedAdd at hadd
      split at hadd
      · cases hadd
        rfl
      · cases hadd
    subst hnext
    obtain ⟨hlt, htarget⟩ := compactLoop_starts hloop
    rw [hfactor] at htarget
    have hsubset := selectForMerge_subset hchosen
    obtain ⟨hsame', tail, hres, htail, hlookup⟩ := compactLoop_ok hmerge
      (fun l hl => hgood l (by simp [hl])) (fun s hs => hfirst.whole s (hsubset s hs)) hloop
    rw [List.nil_append] at hres
    subst hres
    refine Or.inr ⟨front, first, behind, chosen, ⟨hsplit, hchosen, hlt, htarget⟩, fun key => ?_⟩
    obtain ⟨r, hr, htailKey⟩ := hlookup key
    have hafter : GoodContainer (bt.container.swapPartitionedLevels (front ++ newLevels)) := by
      refine ⟨h.levelZero, fun l hl => ?_⟩
      exact (List.mem_append.mp hl).elim (fun hl => hgood l (by simp [hl])) (htail l)
    obtain ⟨r₀, hzero, -, hget⟩ := container_get hafter key
    refine ⟨r, r₀, hr, hzero, ?_⟩
    rw [hcontainer, hsame', hsame, hget]
    show Except.ok (r₀.or (lookupLevels key (front ++ newLevels))) = _
    rw [lookupLevels_append, htailKey]

/-- INTERNAL: a compaction that leaves lookups as they were has kept what the level that was taken
out answers with.
SOURCE: compaction.rs:90-168, 225-235 -/
theorem kept_of_timedOut (hkeeps : TimedOutKeeps bt) {front behind : List Sst.PartitionedLevel}
    {first : Sst.PartitionedLevel} {chosen : List Sst.Segment}
    (hstart : StartsAt bt front first behind chosen) {key : String} {e : SsTableEntry}
    (hzero : bt.container.levelZero.get key = .ok none)
    (hfront : Sst.LevelContainer.getFromLevels key front = .ok none)
    (hget : first.get key = .ok (some e)) : Kept behind chosen e := by
  have hlevels := find_split hstart.split
  have hgood : ∀ l ∈ front ++ first :: behind, GoodLevel l := hlevels ▸ h.levels
  have hfirst : GoodLevel first := hgood first (by simp)
  have hbehind : ∀ l ∈ behind, GoodLevel l := fun l hl => hgood l (by simp [hl])
  rw [getFromLevels_eq (fun l hl => hgood l (by simp [hl]))] at hfront
  rw [partitioned_get hfirst.partitioned hfirst.whole rfl] at hget
  have hnone := Except.ok.inj hfront
  have hentry := Except.ok.inj hget
  have hkey : e.key = key := (mem_of_entryFor hentry).2
  refine (kept_iff hkey).mpr fun r hr => ?_
  obtain ⟨z, hz⟩ := exists_preferring e hr
  have hsubset := selectForMerge_subset hstart.chosen
  have hloop : ∀ bt₀ : Sst.CompactionBt, bt₀.container = bt.container →
      bt₀.levelSizeFactor = bt.levelSizeFactor → ∃ newLevels bt₁,
        (Sst.CompactionBt.compactLoop (mergePreferring z) 1 behind chosen first.targetSize
          (first.levelNumber + 1) []).run bt₀ = .ok newLevels bt₁ ∧
        bt₁.container = bt₀.container ∧ ∃ newLevel, newLevels = newLevel :: behind.tail ∧
          GoodLevel newLevel ∧ allEntries newLevel.segments =
            unionPreferring z (allEntries (firstSegments behind ++ chosen)) := by
    intro bt₀ _ hfactor
    obtain ⟨newLevel, bt₁, hrun, hsame, hnew, hentries⟩ := compactLoop_preferring z hbehind
      (fun s hs => hfirst.whole s (hsubset s hs)) hstart.number_lt bt₀
      (hfactor ▸ hstart.target_lt)
    exact ⟨_, bt₁, hrun, hsame, newLevel, rfl, hnew, hentries⟩
  obtain ⟨newLevels, bt', hrun, hcontainer, newLevel, rfl, hnew, hentries⟩ :=
    timedOut_ok (mergePreferring z) 1 hstart (fun _ => false) hloop
  have hafter := hkeeps _ (mergePreferring_newest z) _ _ _ hrun key
  have hcontainerGood :
      GoodContainer (bt.container.swapPartitionedLevels (front ++ newLevel :: behind.tail)) := by
    refine ⟨h.levelZero, fun l hl => ?_⟩
    obtain hl | hl := List.mem_append.mp hl
    · exact hgood l (by simp [hl])
    · obtain rfl | hl := List.mem_cons.mp hl
      · exact hnew
      · exact hbehind l (List.mem_of_mem_tail hl)
  obtain ⟨r₁, hzero₁, hget₁⟩ := get_of_split hcontainerGood rfl key
  obtain ⟨r₀, hzero₀, hget₀⟩ := get_of_split h hlevels key
  cases hzero.symm.trans hzero₀
  cases hzero.symm.trans hzero₁
  rw [hcontainer, hget₁, hget₀, hnone, hentry, hentries, hz] at hafter
  exact Except.ok.inj hafter

/-- A compaction without a notification leaves all lookups as they were, whatever newest-wins
merges do, exactly when every entry that the level taken out answers with is newer than the other
versions among what was selected from it and the level behind it, or is not there and is what the
other levels have.
SOURCE: compaction.rs:90-168, 225-235; level.rs:232-237, 353-367 -/
theorem timedOut_keeps_iff :
    TimedOutKeeps bt ↔ ∀ front first behind chosen, StartsAt bt front first behind chosen →
      ∀ key e, bt.container.levelZero.get key = .ok none →
        Sst.LevelContainer.getFromLevels key front = .ok none →
        first.get key = .ok (some e) → Kept behind chosen e := by
  constructor
  · intro hkeeps front first behind chosen hstart key e hzero hfront hget
    exact kept_of_timedOut h hkeeps hstart hzero hfront hget
  · intro hkept merge hmerge fuel referenced bt' hrun key
    obtain hsame | ⟨front, first, behind, chosen, hstart, hafter⟩ := timedOut_get h hmerge hrun
    · exact hsame key
    have hlevels := find_split hstart.split
    have hgood : ∀ l ∈ front ++ first :: behind, GoodLevel l := hlevels ▸ h.levels
    have hfirst : GoodLevel first := hgood first (by simp)
    have hbehind : ∀ l ∈ behind, GoodLevel l := fun l hl => hgood l (by simp [hl])
    obtain ⟨r, r₀, hr, hzero, hget⟩ := hafter key
    obtain ⟨r₁, hzero₁, hbefore⟩ := get_of_split h hlevels key
    cases hzero.symm.trans hzero₁
    rw [hget, hbefore]
    cases r₀ with
    | some e => rfl
    | none =>
      cases hfront : lookupLevels key front with
      | some e => rfl
      | none =>
        refine congrArg Except.ok ?_
        show r.or (lookupLevels key behind.tail) =
          (entryFor (allEntries first.segments) key).or (lookupLevels key behind)
        cases hentry : entryFor (allEntries first.segments) key with
        | none =>
          refine newest_or_tail hbehind (fun f hf => ?_) hr
          obtain ⟨s, hs, hfs⟩ := mem_allEntries.mp hf
          have hmem := mem_allEntries.mpr ⟨s, selectForMerge_subset hstart.chosen s hs, hfs⟩
          simpa using List.find?_eq_none.mp hentry f hmem
        | some e =>
          have hfrontGet : Sst.LevelContainer.getFromLevels key front = .ok none := by
            rw [getFromLevels_eq (fun l hl => hgood l (by simp [hl])), hfront]
          have hfirstGet : first.get key = .ok (some e) := by
            rw [partitioned_get hfirst.partitioned hfirst.whole rfl, hentry]
          have hkey := (mem_of_entryFor hentry).2
          exact (kept_iff hkey).mp
            (hkept front first behind chosen hstart key e hzero hfrontGet hfirstGet) r hr

end

/-- INTERNAL: two segments with disjoint ranges make up a level. -/
theorem goodLevel_pair {s t : Sst.Segment} {es fs : List SsTableEntry} {targetSize number : ℕ}
    (hs : Stored s es) (ht : Stored t fs) (hoff : ¬s.overlaps t) :
    GoodLevel ⟨[s, t], targetSize, 1, number⟩ := by
  refine ⟨List.pairwise_pair.mpr hoff, fun u hu => ?_⟩
  obtain rfl | rfl := List.mem_pair.mp hu
  · exact whole_of_stored hs
  · exact whole_of_stored ht

/-- A level of three segments of which the second is selected loses the others. -/
theorem timedOut_loses_segments :
    let level : Sst.PartitionedLevel :=
      ⟨[oneKey 1 1 "a" 1, oneKey 1 2 "b" 2, oneKey 1 3 "c" 3], 80, 1, 1⟩
    let bt : Sst.CompactionBt := ⟨⟨⟨[], 2 ^ 20⟩, [level]⟩, [], 10, Dir.empty⟩
    GoodContainer bt.container ∧ ¬TimedOutKeeps bt := by
  intro level bt
  have ha := @oneKey_stored 1 1 1 "a" (by decide) (by norm_num)
  have hb := @oneKey_stored 1 2 2 "b" (by decide) (by norm_num)
  have hc := @oneKey_stored 1 3 3 "c" (by decide) (by norm_num)
  have hwhole : ∀ s ∈ level.segments, Whole s := by
    intro s hs
    obtain rfl | hs := List.mem_cons.mp hs
    · exact whole_of_stored ha
    obtain rfl | rfl := List.mem_pair.mp hs
    · exact whole_of_stored hb
    · exact whole_of_stored hc
  have hpart : level.segments.Pairwise fun s t => ¬s.overlaps t := by decide
  have hgood : GoodContainer bt.container := by
    refine ⟨fun s hs => absurd hs List.not_mem_nil, fun l hl => ?_⟩
    rw [List.mem_singleton.mp hl]
    exact ⟨hpart, hwhole⟩
  refine ⟨hgood, fun hkeeps => ?_⟩
  have hstart : StartsAt bt [] level [] [oneKey 1 2 "b" 2] :=
    ⟨by decide, by decide, by norm_num, by norm_num⟩
  have hget : level.get "a" = .ok (some ⟨"a", some "v", 1⟩) := by
    have hentries : allEntries level.segments =
        [⟨"a", some "v", 1⟩] ++ ([⟨"b", some "v", 2⟩] ++ ([⟨"c", some "v", 3⟩] ++ [])) := by
      rw [← entriesOf_eq ha, ← entriesOf_eq hb, ← entriesOf_eq hc]
      rfl
    rw [partitioned_get hpart hwhole rfl, hentries]
    rfl
  obtain hwins | ⟨-, hlookup⟩ := kept_of_timedOut hgood hkeeps hstart rfl rfl hget
  · have hmem := hwins.1
    have hchosen : allEntries (firstSegments [] ++ [oneKey 1 2 "b" 2]) = [⟨"b", some "v", 2⟩] :=
      oneKey_entries (by decide) (by norm_num)
    rw [hchosen, List.mem_singleton] at hmem
    exact absurd (congrArg SsTableEntry.key hmem) (by decide)
  · cases hlookup

/-- Of two segments one is selected, and the version in the other one is in the level behind as well,
as after a merge that was interrupted. -/
theorem timedOut_keeps_selected :
    TimedOutKeeps ⟨⟨⟨[], 2 ^ 20⟩, [⟨[oneKey 1 2 "a" 3, oneKey 1 4 "b" 4], 40, 1, 1⟩,
      ⟨[oneKey 2 1 "a" 1, oneKey 2 2 "b" 4], 400, 1, 2⟩]⟩, [], 10, Dir.empty⟩ := by
  have ha := @oneKey_stored 1 2 3 "a" (by decide) (by norm_num)
  have hb := @oneKey_stored 1 4 4 "b" (by decide) (by norm_num)
  have hold := @oneKey_stored 2 1 1 "a" (by decide) (by norm_num)
  have hsame := @oneKey_stored 2 2 4 "b" (by decide) (by norm_num)
  have hfirst : GoodLevel ⟨[oneKey 1 2 "a" 3, oneKey 1 4 "b" 4], 40, 1, 1⟩ :=
    goodLevel_pair ha hb (by decide)
  have hgood : GoodContainer ⟨⟨[], 2 ^ 20⟩, [⟨[oneKey 1 2 "a" 3, oneKey 1 4 "b" 4], 40, 1, 1⟩,
      ⟨[oneKey 2 1 "a" 1, oneKey 2 2 "b" 4], 400, 1, 2⟩]⟩ := by
    refine ⟨fun s hs => absurd hs List.not_mem_nil, fun l hl => ?_⟩
    obtain rfl | rfl := List.mem_pair.mp hl
    · exact hfirst
    · exact goodLevel_pair hold hsame (by decide)
  refine (timedOut_keeps_iff hgood).mpr ?_
  rintro front first behind chosen ⟨hsplit, hchosen, -, -⟩ key e - - hget
  have hfind : Sst.CompactionBt.findPartitionedLevelsToCompact
      [⟨[oneKey 1 2 "a" 3, oneKey 1 4 "b" 4], 40, 1, 1⟩,
        ⟨[oneKey 2 1 "a" 1, oneKey 2 2 "b" 4], 400, 1, 2⟩] =
      .ok ([], [⟨[oneKey 1 2 "a" 3, oneKey 1 4 "b" 4], 40, 1, 1⟩,
        ⟨[oneKey 2 1 "a" 1, oneKey 2 2 "b" 4], 400, 1, 2⟩]) := by
    decide
  cases hfind.symm.trans hsplit
  have hselect : Sst.selectForMerge [oneKey 1 2 "a" 3, oneKey 1 4 "b" 4] 40 =
      .ok [oneKey 1 2 "a" 3] := by
    decide
  cases hselect.symm.trans hchosen
  rw [partitioned_get hfirst.partitioned hfirst.whole rfl, allEntries_pair ha hb] at hget
  have hmerged : allEntries (firstSegments [⟨[oneKey 2 1 "a" 1, oneKey 2 2 "b" 4], 400, 1, 2⟩] ++
      [oneKey 1 2 "a" 3]) =
        [⟨"a", some "v", 1⟩, ⟨"b", some "v", 4⟩, ⟨"a", some "v", 3⟩] := by
    rw [allEntries_append, oneKey_entries (by decide) (by norm_num)]
    show allEntries [oneKey 2 1 "a" 1, oneKey 2 2 "b" 4] ++ _ = _
    rw [allEntries_pair hold hsame]
    rfl
  refine Or.inl ?_
  rw [hmerged]
  obtain rfl | rfl := List.mem_pair.mp (mem_of_entryFor (Except.ok.inj hget)).1
  · exact ⟨by simp, by simp⟩
  · exact ⟨by simp, by simp⟩

end Rkvs.Analysis

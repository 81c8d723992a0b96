import Rkvs.Analysis.CrashFiles

/-!
# Lookups after a crash

A segment that the merge has read and that is still there comes before the merged files. A key that
level zero does not have is answered as before all the same.
-/

set_option autoImplicit false

namespace Rkvs.Analysis

open Rkvs.Library Rkvs.Model Rkvs.Interface

/-! ## Levels that need not be partitioned -/

/-- What a level of whole segments answers with. -/
def answerOf (key : String) (level : Sst.PartitionedLevel) : Option SsTableEntry :=
  match level.findContainingSegment key with
  | none => none
  | some s => entryFor (entriesOf s) key

/-- INTERNAL: the levels are asked one after the other.
SOURCE: sstable.rs:73-83 -/
theorem getFromLevels_answer {levels : List Sst.PartitionedLevel}
    (h : ∀ l ∈ levels, ∀ s ∈ l.segments, Whole s) (key : String) :
    Sst.LevelContainer.getFromLevels key levels = .ok (levels.findSome? (answerOf key)) := by
  induction levels with
  | nil => rfl
  | cons l levels ih =>
    have hget : l.get key = .ok (answerOf key l) := by
      unfold Sst.PartitionedLevel.get answerOf
      cases hfind : l.findContainingSegment key with
      | none => rfl
      | some s => exact whole_get (h l (List.mem_cons_self ..) s (List.mem_of_find?_eq_some hfind)) key
    rw [Sst.LevelContainer.getFromLevels, hget, exec_ok_bind, List.findSome?_cons]
    cases answerOf key l with
    | none => exact ih fun m hm => h m (List.mem_cons_of_mem _ hm)
    | some e => rfl

theorem findSome?_answerOf {levels : List Sst.PartitionedLevel} (h : ∀ l ∈ levels, GoodLevel l)
    (key : String) : levels.findSome? (answerOf key) = lookupLevels key levels := by
  have hsame := getFromLevels_answer (fun l hl => (h l hl).whole) key
  exact Except.ok.inj (hsame.symm.trans (getFromLevels_eq h key))

/-- INTERNAL: where old segments come before merged ones, an old one with the key in its range
answers for them.
SOURCE: level.rs:415-426 -/
theorem answerOf_beside {level : Sst.PartitionedLevel} {old new ins : List Sst.Segment}
    (hpart : Partitioned old) (hmerged : MergedFiles ins new)
    (hmem : ∀ s, s ∈ level.segments ↔ s ∈ old ∨ s ∈ new)
    (hsorted : level.segments.Pairwise fun s t => s.number ≤ t.number)
    (hnumber : ∀ s ∈ old, ∀ t ∈ new, s.number < t.number) (key : String) :
    answerOf key level = answerBeside old new key := by
  have hcontains : ∀ {s : Sst.Segment},
      (decide (s.firstKey ≤ key ∧ key ≤ s.lastKey) : Bool) = true →
        s.firstKey ≤ key ∧ key ≤ s.lastKey := of_decide_eq_true
  unfold answerOf answerBeside Sst.PartitionedLevel.findContainingSegment
  cases hold : old.find? fun s => s.firstKey ≤ key ∧ key ≤ s.lastKey with
  | some s =>
    have hs := List.mem_of_find?_eq_some hold
    have hrange := List.find?_some hold
    rw [find?_eq_some_of_least hsorted ((hmem s).mpr (Or.inl hs)) hrange fun t ht htrange => ?_]
    obtain ht | ht := (hmem t).mp ht
    · exact Or.inl (eq_of_contains hpart ht hs (hcontains htrange) (hcontains hrange))
    · exact Or.inr (hnumber s hs t ht)
  | none =>
    have hnone := List.find?_eq_none.mp hold
    cases hentry : entryFor (allEntries new) key with
    | some e =>
      obtain ⟨he, rfl⟩ := mem_of_entryFor hentry
      obtain ⟨s, hs, hes⟩ := mem_allEntries.mp he
      have hrange := key_in_range (hmerged.whole s hs) hes
      rw [find?_eq_some_of_least hsorted ((hmem s).mpr (Or.inr hs)) (decide_eq_true hrange)
        fun t ht htrange => ?_]
      · exact entryFor_eq_some (hmerged.whole s hs).ascending hes
      · obtain ht | ht := (hmem t).mp ht
        · exact absurd htrange (hnone t ht)
        · exact Or.inl (eq_of_contains (merged_partitioned hmerged) ht hs (hcontains htrange) hrange)
    | none =>
      cases hfind : level.segments.find? fun s => s.firstKey ≤ key ∧ key ≤ s.lastKey with
      | none => rfl
      | some s =>
        obtain hs | hs := (hmem s).mp (List.mem_of_find?_eq_some hfind)
        · exact absurd (List.find?_some hfind) (hnone s hs)
        · refine List.find?_eq_none.mpr fun e he => ?_
          exact List.find?_eq_none.mp hentry e (mem_allEntries.mpr ⟨s, hs, he⟩)

/-- INTERNAL: segments with different numbers have one order.
SOURCE: level.rs:157 -/
theorem byNumber_congr {segments others : List Sst.Segment} (h : segments.Perm others)
    (hdistinct : (segments.map Sst.Segment.number).Nodup) : byNumber segments = byNumber others := by
  have hperm : (byNumber segments).Perm (byNumber others) :=
    (List.mergeSort_perm ..).trans (h.trans (List.mergeSort_perm ..).symm)
  refine hperm.eq_of_pairwise (fun s t hs ht hst hts => ?_) (sorted_mergeSort _ segments)
    (sorted_mergeSort _ others)
  exact List.inj_on_of_nodup_map hdistinct (mem_byNumber.mp hs)
    (h.mem_iff.mpr (mem_byNumber.mp ht)) (Nat.le_antisymm hst hts)

/-! ## After the crash -/

section
variable {c : Sst.LevelContainer} {level : Sst.PartitionedLevel}
  {mergeAndWrite : Sst.PartitionedLevel → List Sst.Segment → EStateM Fault Dir (List Sst.Segment)}
  {chosen new deleted : List Sst.Segment} {dir dir₁ dir₂ : Dir} (hgood : GoodContainer c)
  (hnumbers : NumberedLevels c) (hfiles : FilesOf c dir) (hlevel : level ∈ c.partitionedLevels)
  (hchosen : ∀ s ∈ chosen, s ∈ c.levelZero.segments)
  (hmerged : MergedInto mergeAndWrite level chosen new deleted dir dir₁)
  (hgone : SomeGone deleted dir₁ dir₂)
  {sorted : List Sst.Segment} {levels : List Sst.PartitionedLevel}
  {levelZeroTargetSize levelSizeFactor : ℕ} (hnodup : sorted.Nodup)
  (hsorted : ∀ s, s ∈ sorted ↔ s ∈ new ∨ s ∈ remaining dir₂ (allSegments c))
  (hgrouped : Grouped levelZeroTargetSize levelSizeFactor sorted levels)

include hnumbers hlevel hmerged hsorted

/-- INTERNAL: what is opened of level zero is what remains of it. -/
theorem mem_crash_levelZero {s : Sst.Segment} :
    s ∈ ofLevel sorted 0 ↔ s ∈ remaining dir₂ c.levelZero.segments := by
  rw [mem_ofLevel, hsorted, mem_remaining, mem_remaining]
  constructor
  · rintro ⟨hs | ⟨hs, hname⟩, hzero⟩
    · rw [hmerged.written.levelNumber s hs] at hzero
      exact absurd hzero (hnumbers.positive level hlevel).ne'
    · exact ⟨mem_levelZero_of_levelNumber hnumbers hs hzero, hname⟩
  · rintro ⟨hs, hname⟩
    exact ⟨Or.inr ⟨List.mem_append_left _ hs, hname⟩, hnumbers.levelZero s hs⟩

/-- INTERNAL: what is opened of the level is what remains of it and what was written. -/
theorem mem_crash_level {s : Sst.Segment} :
    s ∈ ofLevel sorted level.levelNumber ↔ s ∈ remaining dir₂ level.segments ∨ s ∈ new := by
  rw [mem_ofLevel, hsorted, mem_remaining, mem_remaining]
  constructor
  · rintro ⟨hs | ⟨hs, hname⟩, hnumber⟩
    · exact Or.inr hs
    · exact Or.inl ⟨mem_of_levelNumber hnumbers hlevel hs hnumber, hname⟩
  · rintro (⟨hs, hname⟩ | hs)
    · refine ⟨Or.inr ⟨List.mem_append_right _ ?_, hname⟩, hnumbers.levels level hlevel s hs⟩
      exact List.mem_flatMap.mpr ⟨level, hlevel, hs⟩
    · exact ⟨Or.inl hs, hmerged.written.levelNumber s hs⟩

include hfiles hchosen hgone in
/-- INTERNAL: other levels are opened as they were. -/
theorem mem_crash_other (s : Sst.Segment)
    (hother : s.levelNumber ≠ 0 ∧ s.levelNumber ≠ level.levelNumber) :
    s ∈ sorted ↔ s ∈ allSegments c := by
  rw [hsorted, mem_remaining]
  constructor
  · rintro (hs | ⟨hs, -⟩)
    · exact absurd (hmerged.written.levelNumber s hs) hother.2
    · exact hs
  · exact fun hs => Or.inr ⟨hs,
      mem_names_of_other hnumbers hfiles hlevel hchosen hmerged hgone hs hother⟩

omit hnumbers hlevel in
include hgood in
/-- INTERNAL: everything that is opened is whole. -/
theorem crash_whole : ∀ s ∈ sorted, Whole s := by
  intro s hs
  obtain hs | hs := (hsorted s).mp hs
  · exact hmerged.written.merged.whole s hs
  · obtain hs | hs := List.mem_append.mp (mem_remaining.mp hs).1
    · exact hgood.levelZero s hs
    · obtain ⟨m, hm, hs⟩ := List.mem_flatMap.mp hs
      exact (hgood.levels m hm).whole s hs

include hgood hgrouped

/-- INTERNAL: the level answers with what remains of it first. -/
theorem crash_level_answer (key : String) :
    (levels.filter fun l => l.levelNumber = level.levelNumber).findSome? (answerOf key) =
      answerBeside (remaining dir₂ level.segments) new key := by
  have hanswer : ∀ l ∈ levels.filter fun l => l.levelNumber = level.levelNumber,
      answerOf key l = answerBeside (remaining dir₂ level.segments) new key := by
    intro l hl
    obtain ⟨hl, hnumber⟩ := List.mem_filter.mp hl
    have hnumber := of_decide_eq_true hnumber
    have hholds := hgrouped.holds l hl
    have hpart : Partitioned (remaining dir₂ level.segments) :=
      (hgood.levels level hlevel).partitioned.sublist List.filter_sublist
    refine answerOf_beside hpart hmerged.written.merged (fun s => ?_) ?_ (fun s hs t ht => ?_) key
    · rw [hholds, mem_byNumber, hnumber, mem_crash_level hnumbers hlevel hmerged hsorted]
    · rw [hholds]
      exact sorted_mergeSort ..
    · exact (le_highestNumber (mem_remaining.mp hs).1).trans_lt (hmerged.written.number t ht)
  by_cases hfilter : (levels.filter fun l => l.levelNumber = level.levelNumber) = []
  · -- no level with the number, so there is no segment for it
    have hnone : ∀ s, s ∉ ofLevel sorted level.levelNumber := by
      intro s hs
      obtain ⟨hmem, hnumber⟩ := mem_ofLevel.mp hs
      obtain ⟨l, hl, hsame⟩ :=
        hgrouped.complete s hmem (hnumber ▸ hnumbers.positive level hlevel)
      have hin : l ∈ levels.filter fun l => l.levelNumber = level.levelNumber :=
        List.mem_filter.mpr ⟨hl, decide_eq_true (hsame.trans hnumber)⟩
      rw [hfilter] at hin
      cases hin
    simp only [mem_crash_level hnumbers hlevel hmerged hsorted, not_or] at hnone
    have hold : remaining dir₂ level.segments = [] :=
      List.eq_nil_iff_forall_not_mem.mpr fun s => (hnone s).1
    have hnew : new = [] := List.eq_nil_iff_forall_not_mem.mpr fun s => (hnone s).2
    rw [hfilter, hold, hnew]
    rfl
  · exact findSome?_of_forall_eq hfilter hanswer

include hfiles hchosen hgone hnodup

/-- INTERNAL: other levels answer as they did. -/
theorem crash_other_answer (q : ℕ → Prop) [DecidablePred q] (hq : ∀ k, q k → k ≠ level.levelNumber)
    (key : String) : (levels.filter fun l => q l.levelNumber).findSome? (answerOf key) =
      lookupLevels key (c.partitionedLevels.filter fun m => q m.levelNumber) := by
  have hsame : ∀ s : Sst.Segment, (s.levelNumber ≠ 0 ∧ q s.levelNumber) →
      (s ∈ sorted ↔ s ∈ allSegments c) := fun s hs =>
    mem_crash_other hnumbers hfiles hlevel hchosen hmerged hgone hsorted s ⟨hs.1, hq _ hs.2⟩
  have hlookup := rebuilt_lookupLevels (p := fun k => k ≠ 0 ∧ q k) hgood hnumbers hnodup hsame
    hgrouped key
  have hfilter : (levels.filter fun l => q l.levelNumber) =
      levels.filter fun l => l.levelNumber ≠ 0 ∧ q l.levelNumber := by
    refine List.filter_congr fun l hl => ?_
    simp [(hgrouped.positive l hl).ne']
  have hfilter' : (c.partitionedLevels.filter fun m => q m.levelNumber) =
      c.partitionedLevels.filter fun m => m.levelNumber ≠ 0 ∧ q m.levelNumber := by
    refine List.filter_congr fun m hm => ?_
    simp [(hnumbers.positive m hm).ne']
  rw [hfilter, hfilter', ← hlookup]
  refine findSome?_answerOf (fun l hl => ?_) key
  obtain ⟨hl, hp⟩ := List.mem_filter.mp hl
  exact rebuilt_good (p := fun k => k ≠ 0 ∧ q k) hgood hnumbers hnodup hsame hgrouped hl
    (of_decide_eq_true hp)

/-- INTERNAL: what the levels answer after the crash. -/
theorem crash_levels_answer (key : String) :
    levels.findSome? (answerOf key) = levelsAnswer c level new dir₂ key := by
  have hfront := crash_other_answer hgood hnumbers hfiles hlevel hchosen hmerged hgone hnodup
    hsorted hgrouped (· < level.levelNumber) (fun k hk => hk.ne) key
  have hbehind := crash_other_answer hgood hnumbers hfiles hlevel hchosen hmerged hgone hnodup
    hsorted hgrouped (level.levelNumber < ·) (fun k hk => hk.ne') key
  have hat := crash_level_answer hgood hnumbers hlevel hmerged hsorted hgrouped key
  rw [eq_filter_append_of_ascending hgrouped.ascending level.levelNumber, List.findSome?_append,
    List.findSome?_append]
  unfold levelsAnswer
  rw [hfront, hat, hbehind]

omit hgood hgrouped hfiles hchosen hgone in
/-- INTERNAL: what remains of level zero is opened in the order of the numbers. -/
theorem crash_levelZero :
    byNumber (ofLevel sorted 0) = (remainingLevelZero c dir₂).segments := by
  have hdistinct : ((remaining dir₂ c.levelZero.segments).map Sst.Segment.number).Nodup :=
    hnumbers.distinct.sublist (List.filter_sublist.map _)
  have hperm : (remaining dir₂ c.levelZero.segments).Perm (ofLevel sorted 0) :=
    (List.perm_ext_iff_of_nodup hdistinct.of_map (hnodup.filter _)).mpr fun s =>
      (mem_crash_levelZero hnumbers hlevel hmerged hsorted).symm
  exact (byNumber_congr hperm hdistinct).symm

/-- INTERNAL: what is found after the crash. -/
theorem crash_get {added : List Sst.PartitionedLevel} (hadded : ∀ l ∈ added, GoodLevel l)
    (key : String) :
    ∃ r, (remainingLevelZero c dir₂).get key = .ok r ∧
      Newest (allEntries (remaining dir₂ c.levelZero.segments)) key r ∧
      Sst.LevelContainer.get ⟨⟨byNumber (ofLevel sorted 0), levelZeroTargetSize⟩, levels ++ added⟩
        key = .ok (r.or ((levelsAnswer c level new dir₂ key).or (lookupLevels key added))) := by
  have hwhole := crash_whole hgood hmerged hsorted
  have hzero : ∀ s ∈ (remainingLevelZero c dir₂).segments, Whole s := fun s hs =>
    hgood.levelZero s (mem_remaining.mp (mem_byNumber.mp hs)).1
  obtain ⟨r, hr, hnewest⟩ := overlapping_get hzero key
  have hsame : ∀ e, e ∈ allEntries (remainingLevelZero c dir₂).segments ↔
      e ∈ allEntries (remaining dir₂ c.levelZero.segments) := by
    intro e
    simp only [mem_allEntries]
    exact exists_congr fun s => and_congr_left fun _ => mem_byNumber
  refine ⟨r, hr, hnewest.congr fun e _ => hsame e, ?_⟩
  have hlevels : ∀ l ∈ levels ++ added, ∀ s ∈ l.segments, Whole s := by
    intro l hl s hs
    obtain hl | hl := List.mem_append.mp hl
    · rw [hgrouped.holds l hl] at hs
      exact hwhole s (mem_ofLevel.mp (mem_byNumber.mp hs)).1
    · exact (hadded l hl).whole s hs
  have hbehind : Sst.LevelContainer.getFromLevels key (levels ++ added) =
      .ok ((levelsAnswer c level new dir₂ key).or (lookupLevels key added)) := by
    rw [getFromLevels_answer hlevels, List.findSome?_append, findSome?_answerOf hadded,
      crash_levels_answer hgood hnumbers hfiles hlevel hchosen hmerged hgone hnodup hsorted
        hgrouped]
  rw [crash_levelZero hnumbers hlevel hmerged hnodup hsorted]
  unfold Sst.LevelContainer.get
  have hr' : Sst.OverlappingLevel.get ⟨(remainingLevelZero c dir₂).segments, levelZeroTargetSize⟩
      key = .ok r := hr
  dsimp only
  rw [hr', exec_ok_bind]
  cases r with
  | none => exact hbehind
  | some e => rfl

end

/-! ## What was found before -/

section
variable {c : Sst.LevelContainer} {level : Sst.PartitionedLevel}
  {mergeAndWrite : Sst.PartitionedLevel → List Sst.Segment → EStateM Fault Dir (List Sst.Segment)}
  {chosen new deleted : List Sst.Segment} {dir dir₁ dir₂ : Dir} (hgood : GoodContainer c)
  (hnumbers : NumberedLevels c) (hfiles : FilesOf c dir) (hlevel : level ∈ c.partitionedLevels)
  (hchosen : ∀ s ∈ chosen, s ∈ c.levelZero.segments)
  (hmerged : MergedInto mergeAndWrite level chosen new deleted dir dir₁)
  (hgone : SomeGone deleted dir₁ dir₂) {key : String}
  (habsent : ∀ e ∈ allEntries c.levelZero.segments, e.key ≠ key)

include hchosen hmerged habsent

/-- INTERNAL: what is merged has a key that level zero does not have from the level. -/
theorem mem_level_of_deleted {e : SsTableEntry} (he : e ∈ allEntries deleted) (hkey : e.key = key) :
    e ∈ allEntries level.segments := by
  rw [deleted_eq hmerged, allEntries_append] at he
  obtain he | he := List.mem_append.mp he
  · obtain ⟨s, hs, hes⟩ := mem_allEntries.mp he
    exact mem_allEntries.mpr ⟨s, (mem_touchedBy.mp hs).1, hes⟩
  · obtain ⟨s, hs, hes⟩ := mem_allEntries.mp he
    exact absurd hkey (habsent e (mem_allEntries.mpr ⟨s, hchosen s hs, hes⟩))

include hgood hfiles hlevel hgone

/-- INTERNAL: the level answers as before for a key that level zero does not have. -/
theorem answerBeside_absent :
    answerBeside (remaining dir₂ level.segments) new key =
      entryFor (allEntries level.segments) key := by
  obtain ⟨hpart, hwhole⟩ := hgood.levels level hlevel
  have hcontains : ∀ {s : Sst.Segment},
      (decide (s.firstKey ≤ key ∧ key ≤ s.lastKey) : Bool) = true →
        s.firstKey ≤ key ∧ key ≤ s.lastKey := of_decide_eq_true
  unfold answerBeside
  cases hentry : entryFor (allEntries level.segments) key with
  | some e =>
    obtain ⟨he, hkey⟩ := mem_of_entryFor hentry
    obtain ⟨v, hv, hev⟩ := mem_allEntries.mp he
    have hrange := hkey ▸ key_in_range (hwhole v hv) hev
    cases hfind : (remaining dir₂ level.segments).find? fun s =>
        s.firstKey ≤ key ∧ key ≤ s.lastKey with
    | some u =>
      have hu := (mem_remaining.mp (List.mem_of_find?_eq_some hfind)).1
      have hurange := List.find?_some hfind
      rw [eq_of_contains hpart hu hv (hcontains hurange) hrange]
      exact hkey ▸ entryFor_eq_some (hwhole v hv).ascending hev
    | none =>
      -- the segment that has the entry is gone, so it was merged
      have hdeleted : v ∈ deleted := by
        refine mem_deleted_of_gone hfiles hlevel hchosen hmerged hgone
          (List.mem_append_right _ (List.mem_flatMap.mpr ⟨level, hlevel, hv⟩)) fun hname => ?_
        exact absurd (decide_eq_true hrange)
          (List.find?_eq_none.mp hfind v (mem_remaining.mpr ⟨hv, hname⟩))
      have hwins : Wins SsTableEntry.key SsTableEntry.sequenceNumber (allEntries deleted) e := by
        refine ⟨mem_allEntries.mpr ⟨v, hdeleted, hev⟩, fun f hf hsame hne => ?_⟩
        have hflevel := mem_level_of_deleted hchosen hmerged habsent hf (hsame.trans hkey)
        exact absurd (List.inj_on_of_nodup_map (nodup_keys hpart hwhole) hflevel he hsame) hne
      exact hwins.eq hkey (hmerged.written.merged.newest key)
  | none =>
    have hnone := List.find?_eq_none.mp hentry
    cases hfind : (remaining dir₂ level.segments).find? fun s =>
        s.firstKey ≤ key ∧ key ≤ s.lastKey with
    | some u =>
      have hu := (mem_remaining.mp (List.mem_of_find?_eq_some hfind)).1
      exact List.find?_eq_none.mpr fun e he => hnone e (mem_allEntries.mpr ⟨u, hu, he⟩)
    | none =>
      refine List.find?_eq_none.mpr fun e he => ?_
      intro hkey
      exact hnone e (mem_level_of_deleted hchosen hmerged habsent
        (merged_key hmerged.written.merged he) (of_decide_eq_true hkey)) hkey

include hnumbers

/-- INTERNAL: so do all levels. -/
theorem levelsAnswer_absent :
    levelsAnswer c level new dir₂ key = lookupLevels key c.partitionedLevels := by
  have hat : lookupLevels key (c.partitionedLevels.filter fun m =>
      m.levelNumber = level.levelNumber) = entryFor (allEntries level.segments) key := by
    refine findSome?_of_forall_eq (List.ne_nil_of_mem
      (List.mem_filter.mpr ⟨hlevel, decide_eq_true rfl⟩)) fun m hm => ?_
    obtain ⟨hm, hnumber⟩ := List.mem_filter.mp hm
    have hnodup : (c.partitionedLevels.map Sst.PartitionedLevel.levelNumber).Nodup :=
      List.pairwise_map.mpr (hnumbers.ascending.imp Nat.ne_of_lt)
    rw [List.inj_on_of_nodup_map hnodup hm hlevel (of_decide_eq_true hnumber)]
  unfold levelsAnswer
  rw [answerBeside_absent hgood hfiles hlevel hchosen hmerged hgone habsent, ← hat]
  have hsplit := eq_filter_append_of_ascending hnumbers.ascending level.levelNumber
  conv_rhs => rw [hsplit]
  rw [lookupLevels_append, lookupLevels_append]

end

end Rkvs.Analysis

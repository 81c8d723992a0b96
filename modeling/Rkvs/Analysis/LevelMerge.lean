import Rkvs.Analysis.SstLevels

/-!
# Merges into a partitioned level

A segment that overlaps no incoming segment stays as it is. What is written from the others must
keep off its range, and does so unless the segment lies between two of them.
-/

set_option autoImplicit false

namespace Rkvs.Analysis

open Rkvs.Library Rkvs.Model Rkvs.Interface

/-- INTERNAL: the segments of a level that a merge leaves alone. -/
def untouchedBy (level : Sst.PartitionedLevel) (incoming : List Sst.Segment) :
    List Sst.Segment :=
  level.segments.filter fun s => !incoming.any fun t => s.overlaps t

section
variable {level : Sst.PartitionedLevel} {incoming : List Sst.Segment}

/-- INTERNAL: the segments of a level that overlap one that comes in. -/
theorem mem_touchedBy {s : Sst.Segment} :
    s ∈ touchedBy level incoming ↔ s ∈ level.segments ∧ ∃ t ∈ incoming, s.overlaps t := by
  unfold touchedBy
  rw [List.mem_filter, List.any_eq_true]
  simp

/-- INTERNAL: the segments of a level that overlap none. -/
theorem mem_untouchedBy {s : Sst.Segment} :
    s ∈ untouchedBy level incoming ↔ s ∈ level.segments ∧ ∀ t ∈ incoming, ¬s.overlaps t := by
  unfold untouchedBy
  rw [List.mem_filter]
  simp

/-- A merge keeps the untouched segments and adds what was written from the others.
SOURCE: level.rs:441-477 -/
theorem merge_run_eq_ok
    {mergeAndWrite : Sst.PartitionedLevel → List Sst.Segment → EStateM Fault Dir (List Sst.Segment)}
    {d d' : Dir} {level' : Sst.PartitionedLevel} {deleted : List Sst.Segment}
    (h : (level.merge mergeAndWrite incoming).run d = .ok (level', deleted) d') :
    ∃ out, (mergeAndWrite level (touchedBy level incoming ++ incoming)).run d = .ok out d' ∧
      level'.segments.Perm (out ++ untouchedBy level incoming) ∧
      deleted = touchedBy level incoming ++ incoming := by
  obtain ⟨out, mid, hout, hrest⟩ := run_bind_eq_ok h
  cases hrest
  exact ⟨out, hout, List.mergeSort_perm .., rfl⟩

/-- INTERNAL: a merge returns when the writing does.
SOURCE: level.rs:441-477 -/
theorem merge_run_ok
    {mergeAndWrite : Sst.PartitionedLevel → List Sst.Segment → EStateM Fault Dir (List Sst.Segment)}
    {d d' : Dir} {out : List Sst.Segment}
    (h : (mergeAndWrite level (touchedBy level incoming ++ incoming)).run d = .ok out d') :
    ∃ level', (level.merge mergeAndWrite incoming).run d =
        .ok (level', touchedBy level incoming ++ incoming) d' ∧
      level'.segments.Perm (out ++ untouchedBy level incoming) := by
  refine ⟨{ level with
    segments := (out ++ untouchedBy level incoming).mergeSort fun s t => s.firstKey ≤ t.firstKey },
    ?_, List.mergeSort_perm ..⟩
  unfold Sst.PartitionedLevel.merge
  exact run_bind_ok h

/-- What is written has the keys that were read.
SOURCE: level.rs:468-475 -/
theorem merged_key {ins out : List Sst.Segment} (h : MergedFiles ins out) {e : SsTableEntry}
    (he : e ∈ allEntries out) : e ∈ allEntries ins := by
  have hnodup : ((allEntries out).map SsTableEntry.key).Nodup := by
    have hsorted : ((allEntries out).map SsTableEntry.key).Pairwise (· < ·) :=
      List.pairwise_map.mpr h.ascending
    exact hsorted.imp fun hlt => hlt.ne
  have hnewest := h.newest e.key
  rw [entryFor_of_mem hnodup he] at hnewest
  exact hnewest.1

/-- INTERNAL: segments whose entries ascend from one to the next have ranges in that order. -/
theorem ranges_of_ascending {out : List Sst.Segment} (hwhole : ∀ s ∈ out, Whole s)
    (hasc : Ascending (allEntries out)) : out.Pairwise fun s t => s.lastKey < t.firstKey := by
  induction out with
  | nil => exact List.Pairwise.nil
  | cons s out ih =>
    obtain ⟨-, htail, hcross⟩ := List.pairwise_append.mp hasc
    refine List.pairwise_cons.mpr ⟨fun t ht => ?_, ih (fun t ht => hwhole t (List.mem_cons_of_mem _ ht))
      htail⟩
    obtain ⟨e, he, hlast⟩ := exists_last (hwhole s (List.mem_cons_self ..))
    obtain ⟨f, hf, hfirst⟩ := exists_first (hwhole t (List.mem_cons_of_mem _ ht))
    have hlt := hcross e he f (mem_allEntries.mpr ⟨t, ht, hf⟩)
    rwa [hlast, hfirst] at hlt

/-- The files that a merge writes have disjoint ranges.
SOURCE: level.rs:479-555 -/
theorem merged_partitioned {ins out : List Sst.Segment} (h : MergedFiles ins out) :
    Partitioned out :=
  (ranges_of_ascending h.whole h.ascending).imp fun hlt => not_overlaps_iff.mpr (Or.inl hlt)

section
variable (hpart : Partitioned level.segments) (hwhole : ∀ s ∈ level.segments, Whole s)
  (hincoming : ∀ s ∈ incoming, Whole s)

include hpart in
/-- INTERNAL: a segment that is left alone is off the ranges of what is read.
SOURCE: level.rs:447-464 -/
theorem untouched_off {u t : Sst.Segment} (hu : u ∈ untouchedBy level incoming)
    (ht : t ∈ touchedBy level incoming ++ incoming) : ¬u.overlaps t := by
  obtain ⟨hmem, hoff⟩ := mem_untouchedBy.mp hu
  obtain ht | ht := List.mem_append.mp ht
  · obtain ⟨htmem, i, hi, htouch⟩ := mem_touchedBy.mp ht
    have : Std.Symm fun s t : Sst.Segment => ¬s.overlaps t := ⟨fun _ _ => overlaps_symm⟩
    refine hpart.forall hmem htmem ?_
    rintro rfl
    exact hoff i hi htouch
  · exact hoff t ht

include hwhole hincoming in
/-- INTERNAL: a merge reads segments as they were written. -/
theorem reads_whole : ∀ s ∈ touchedBy level incoming ++ incoming, Whole s := by
  intro s hs
  obtain hs | hs := List.mem_append.mp hs
  · exact hwhole s (mem_touchedBy.mp hs).1
  · exact hincoming s hs

include hpart hwhole hincoming

/-- INTERNAL: what is written keeps off the segments left alone if none of them is straddled. -/
theorem written_off {out : List Sst.Segment}
    (hmerged : MergedFiles (touchedBy level incoming ++ incoming) out)
    (h : ¬Straddled level incoming) {o u : Sst.Segment} (ho : o ∈ out)
    (hu : u ∈ untouchedBy level incoming) : ¬o.overlaps u := by
  have hreads := reads_whole hwhole hincoming
  have hsource : ∀ e ∈ entriesOf o, ∃ a ∈ touchedBy level incoming ++ incoming,
      a.firstKey ≤ e.key ∧ e.key ≤ a.lastKey := by
    intro e he
    obtain ⟨a, ha, hea⟩ := mem_allEntries.mp (merged_key hmerged (mem_allEntries.mpr ⟨o, ho, he⟩))
    exact ⟨a, ha, key_in_range (hreads a ha) hea⟩
  obtain ⟨first, hfirst, hfirstKey⟩ := exists_first (hmerged.whole o ho)
  obtain ⟨last, hlast, hlastKey⟩ := exists_last (hmerged.whole o ho)
  obtain ⟨a, ha, hafirst, halast⟩ := hsource first hfirst
  obtain ⟨b, hb, hbfirst, hblast⟩ := hsource last hlast
  have hoffa := not_overlaps_iff.mp (untouched_off hpart hu ha)
  have hoffb := not_overlaps_iff.mp (untouched_off hpart hu hb)
  rw [not_overlaps_iff, ← hfirstKey, ← hlastKey]
  obtain hbelow | habove := hoffb
  · obtain hbelow' | habove' := hoffa
    · exact Or.inr (hbelow'.trans_le hafirst)
    · exact absurd ⟨u, (mem_untouchedBy.mp hu).1, (mem_untouchedBy.mp hu).2, a, ha, b, hb,
        habove', hbelow⟩ h
  · exact Or.inl (hblast.trans_lt habove)

/-- A merge that straddles no segment leaves the level partitioned.
SOURCE: level.rs:441-477 -/
theorem merge_partitioned
    {mergeAndWrite : Sst.PartitionedLevel → List Sst.Segment → EStateM Fault Dir (List Sst.Segment)}
    (hwrites : WritesNewest mergeAndWrite) (h : ¬Straddled level incoming) {d d' : Dir}
    {level' : Sst.PartitionedLevel} {deleted : List Sst.Segment}
    (hrun : (level.merge mergeAndWrite incoming).run d = .ok (level', deleted) d') :
    Partitioned level'.segments ∧ ∀ s ∈ level'.segments, Whole s := by
  obtain ⟨out, hout, hperm, -⟩ := merge_run_eq_ok hrun
  have hmerged := hwrites _ _ _ _ _ (reads_whole hwhole hincoming) hout
  constructor
  · refine (hperm.pairwise_iff overlaps_symm).mpr (List.pairwise_append.mpr ⟨?_, ?_, ?_⟩)
    · exact merged_partitioned hmerged
    · exact hpart.sublist List.filter_sublist
    · exact fun o ho u hu => written_off hpart hwhole hincoming hmerged h ho hu
  · intro s hs
    obtain hs | hs := List.mem_append.mp (hperm.subset hs)
    · exact hmerged.whole s hs
    · exact hwhole s (mem_untouchedBy.mp hs).1

end

end

/-! ## A merge into one file -/

/-- `merge_and_write` that gets all there is into one file. -/
def unionInOneFile (_ : Sst.PartitionedLevel) (ins : List Sst.Segment) :
    EStateM Fault Dir (List Sst.Segment) :=
  let union := newestUnion SsTableEntry.key SsTableEntry.sequenceNumber (allEntries ins)
  if union = [] then pure [] else pure [segmentHolding "" 1 1 union]

/-- INTERNAL: a segment of the newest entries holds them. -/
theorem union_stored {ins : List Sst.Segment} (hins : ∀ s ∈ ins, Whole s) {path : String}
    {levelNumber number : ℕ}
    (hne : newestUnion SsTableEntry.key SsTableEntry.sequenceNumber (allEntries ins) ≠ []) :
    Stored (segmentHolding path levelNumber number
      (newestUnion SsTableEntry.key SsTableEntry.sequenceNumber (allEntries ins)))
      (newestUnion SsTableEntry.key SsTableEntry.sequenceNumber (allEntries ins)) := by
  refine segmentHolding_stored hne (pairwise_newestUnion _) fun e he => ?_
  obtain ⟨s, hs, hes⟩ := mem_allEntries.mp (mem_of_mem_newestUnion he)
  exact (hins s hs).fits e hes

/-- INTERNAL: writing the newest entries to one file keeps them. -/
theorem unionInOneFile_writesNewest : WritesNewest unionInOneFile := by
  intro level ins d out d' hins hrun
  unfold unionInOneFile at hrun
  dsimp only at hrun
  by_cases hunion : newestUnion SsTableEntry.key SsTableEntry.sequenceNumber (allEntries ins) = []
  · rw [if_pos hunion] at hrun
    cases hrun
    refine ⟨fun s hs => absurd hs List.not_mem_nil, List.Pairwise.nil, fun key => ?_⟩
    have hnewest : Newest (allEntries ins) key _ := isNewest_newestUnion (allEntries ins) key
    rwa [hunion] at hnewest
  · rw [if_neg hunion] at hrun
    cases hrun
    have hstored := @union_stored ins hins "" 1 1 hunion
    have hall : allEntries [segmentHolding "" 1 1 (newestUnion SsTableEntry.key
        SsTableEntry.sequenceNumber (allEntries ins))] =
        newestUnion SsTableEntry.key SsTableEntry.sequenceNumber (allEntries ins) := by
      rw [allEntries_singleton, entriesOf_eq hstored]
    refine ⟨fun s hs => ?_, ?_, fun key => ?_⟩
    · rw [List.mem_singleton.mp hs]
      exact whole_of_stored hstored
    · rw [hall]
      exact pairwise_newestUnion _
    · rw [hall]
      exact isNewest_newestUnion _ key

/-- A merge that straddles a segment can leave ranges that overlap.
SOURCE: level.rs:447-475 -/
theorem straddled_breaks {level : Sst.PartitionedLevel} {incoming : List Sst.Segment}
    (hwhole : ∀ s ∈ level.segments, Whole s) (hincoming : ∀ s ∈ incoming, Whole s)
    (h : Straddled level incoming) : ¬StaysPartitioned level incoming := by
  obtain ⟨u, hu, hoff, a, ha, b, hb, hau, hub⟩ := h
  intro hstays
  have hreads := reads_whole hwhole hincoming
  set ins := touchedBy level incoming ++ incoming with hins
  set union := newestUnion SsTableEntry.key SsTableEntry.sequenceNumber (allEntries ins)
    with hunion
  have hhas : ∀ s ∈ ins, ∀ e ∈ entriesOf s, ∃ f ∈ union, f.key = e.key := by
    intro s hs e he
    have hnewest : Newest (allEntries ins) e.key _ := isNewest_newestUnion (allEntries ins) e.key
    cases hfind : union.find? fun f => f.key = e.key with
    | none =>
      rw [hfind] at hnewest
      exact absurd rfl (hnewest e (mem_allEntries.mpr ⟨s, hs, he⟩))
    | some f => exact ⟨f, mem_of_entryFor hfind⟩
  obtain ⟨last, hlast, hlastKey⟩ := exists_last (hreads a ha)
  obtain ⟨first, hfirst, hfirstKey⟩ := exists_first (hreads b hb)
  obtain ⟨e, he, hekey⟩ := hhas a ha last hlast
  obtain ⟨f, hf, hfkey⟩ := hhas b hb first hfirst
  have hne : union ≠ [] := List.ne_nil_of_mem he
  have hstored : Stored (segmentHolding "" 1 1 union) union := union_stored hreads hne
  have hwrite : (unionInOneFile level ins).run Dir.empty =
      .ok [segmentHolding "" 1 1 union] Dir.empty := by
    unfold unionInOneFile
    dsimp only
    rw [if_neg hne]
    rfl
  obtain ⟨level', hrun, hperm⟩ := merge_run_ok hwrite
  obtain ⟨hpart', -⟩ := hstays unionInOneFile unionInOneFile_writesNewest _ _ _ _ hrun
  have hall := (hperm.pairwise_iff overlaps_symm).mp hpart'
  refine (List.pairwise_cons.mp hall).1 u (mem_untouchedBy.mpr ⟨hu, hoff⟩) ⟨?_, ?_⟩
  · -- the file ends behind the segment
    have hrange := key_in_range (whole_of_stored hstored) ((entriesOf_eq hstored).symm ▸ hf)
    rw [hfkey, hfirstKey] at hrange
    exact ((firstKey_le_lastKey (hwhole u hu)).trans hub.le).trans hrange.2
  · -- and starts before it
    have hrange := key_in_range (whole_of_stored hstored) ((entriesOf_eq hstored).symm ▸ he)
    rw [hekey, hlastKey] at hrange
    exact (hrange.1.trans hau.le).trans (firstKey_le_lastKey (hwhole u hu))

/-- A merge leaves a partitioned level partitioned, whatever files it writes, exactly when no
segment that it leaves alone lies between two that it reads.
SOURCE: level.rs:415-426, 441-477 -/
theorem merge_partitioned_iff {level : Sst.PartitionedLevel} {incoming : List Sst.Segment}
    (hpart : Partitioned level.segments) (hwhole : ∀ s ∈ level.segments, Whole s)
    (hincoming : ∀ s ∈ incoming, Whole s) :
    StaysPartitioned level incoming ↔ ¬Straddled level incoming := by
  constructor
  · exact fun hstays hstraddled => straddled_breaks hwhole hincoming hstraddled hstays
  · intro h mergeAndWrite hwrites d level' deleted d' hrun
    obtain ⟨hpart', hwhole'⟩ := merge_partitioned hpart hwhole hincoming hwrites h hrun
    exact ⟨hpart', fun s hs e he => findContainingSegment_eq hpart' hwhole' rfl hs he⟩

/-- A segment of one entry. -/
def oneKey (levelNumber number : ℕ) (key : String) (sequenceNumber : ℕ) : Sst.Segment :=
  segmentHolding "" levelNumber number [⟨key, some "v", sequenceNumber⟩]

/-- INTERNAL: a segment of one entry holds it. -/
theorem oneEntry_stored {filepath : String} {levelNumber number sequenceNumber : ℕ} {key : String}
    (hlen : (asBytes key).length < 2 ^ 31) (hseq : sequenceNumber < 2 ^ 64) :
    Stored (segmentHolding filepath levelNumber number [⟨key, some "v", sequenceNumber⟩])
      [⟨key, some "v", sequenceNumber⟩] := by
  refine segmentHolding_stored (List.cons_ne_nil _ _) (List.pairwise_singleton ..) fun e he => ?_
  rw [List.mem_singleton.mp he]
  have hv : (asBytes "v").length = 1 := by decide
  have hentry : (⟨key, some "v", sequenceNumber⟩ : SsTableEntry).len =
      16 + (asBytes key).length + ((asBytes "v").length + 1) := rfl
  exact ⟨by omega, hseq⟩

/-- INTERNAL: the same for the file of its number. -/
theorem oneKey_stored {levelNumber number sequenceNumber : ℕ} {key : String}
    (hlen : (asBytes key).length < 2 ^ 31) (hseq : sequenceNumber < 2 ^ 64) :
    Stored (oneKey levelNumber number key sequenceNumber) [⟨key, some "v", sequenceNumber⟩] :=
  oneEntry_stored hlen hseq

/-- A segment with a version of one key. -/
def versionOf (filepath : String) (levelNumber number sequenceNumber : ℕ) : Sst.Segment :=
  segmentHolding filepath levelNumber number [⟨"a", some "v", sequenceNumber⟩]

/-- INTERNAL: a version of a key is held by its segment. -/
theorem versionOf_stored {filepath : String} {levelNumber number sequenceNumber : ℕ}
    (hseq : sequenceNumber < 2 ^ 64) :
    Stored (versionOf filepath levelNumber number sequenceNumber)
      [⟨"a", some "v", sequenceNumber⟩] := oneEntry_stored (by decide) hseq

/-- INTERNAL: its segment is whole. -/
theorem versionOf_whole {filepath : String} {levelNumber number sequenceNumber : ℕ}
    (hseq : sequenceNumber < 2 ^ 64) :
    Whole (versionOf filepath levelNumber number sequenceNumber) :=
  whole_of_stored (versionOf_stored hseq)

/-- Two flushed segments that a segment of level one lies between are merged over it. -/
theorem merge_over_segment :
    let level : Sst.PartitionedLevel := ⟨[oneKey 1 1 "b" 1], 2 ^ 20, 1, 1⟩
    let incoming := [oneKey 0 1 "a" 2, oneKey 0 2 "c" 3]
    Partitioned level.segments ∧ (∀ s ∈ level.segments, Whole s) ∧ (∀ s ∈ incoming, Whole s) ∧
      ¬StaysPartitioned level incoming := by
  intro level incoming
  have hlevel : ∀ s ∈ level.segments, Whole s := by
    intro s hs
    rw [List.mem_singleton.mp hs]
    exact whole_of_stored (oneKey_stored (by decide) (by norm_num))
  have hincoming : ∀ s ∈ incoming, Whole s := by
    intro s hs
    obtain rfl | rfl := List.mem_pair.mp hs
    · exact whole_of_stored (oneKey_stored (by decide) (by norm_num))
    · exact whole_of_stored (oneKey_stored (by decide) (by norm_num))
  have hoff : ∀ t ∈ incoming, ¬(oneKey 1 1 "b" 1).overlaps t := by
    intro t ht
    obtain rfl | rfl := List.mem_pair.mp ht
    · exact not_overlaps_iff.mpr (Or.inr (by decide))
    · exact not_overlaps_iff.mpr (Or.inl (by decide))
  refine ⟨List.pairwise_singleton .., hlevel, hincoming, straddled_breaks hlevel hincoming ?_⟩
  refine ⟨_, List.mem_singleton_self _, hoff, oneKey 0 1 "a" 2, ?_, oneKey 0 2 "c" 3, ?_, ?_, ?_⟩
  · exact List.mem_append_right _ (List.mem_cons_self ..)
  · exact List.mem_append_right _ (List.mem_cons_of_mem _ (List.mem_singleton_self _))
  · show "a" < "b"
    decide
  · show "b" < "c"
    decide

/-- Segments that come in from one side keep the level partitioned. -/
theorem merge_partitioned_one_side :
    StaysPartitioned ⟨[oneKey 1 1 "b" 1], 2 ^ 20, 1, 1⟩ [oneKey 0 1 "c" 2] := by
  have hwhole : ∀ s ∈ [oneKey 1 1 "b" 1], Whole s := by
    intro s hs
    rw [List.mem_singleton.mp hs]
    exact whole_of_stored (oneKey_stored (by decide) (by norm_num))
  have hincoming : ∀ s ∈ [oneKey 0 1 "c" 2], Whole s := by
    intro s hs
    rw [List.mem_singleton.mp hs]
    exact whole_of_stored (oneKey_stored (by decide) (by norm_num))
  have hpart : Partitioned [oneKey 1 1 "b" 1] := List.pairwise_singleton ..
  refine (merge_partitioned_iff hpart hwhole hincoming).mpr ?_
  rintro ⟨u, hu, -, a, ha, -, -, hlt, -⟩
  rw [List.mem_singleton.mp hu] at hlt
  obtain ha | ha := List.mem_append.mp ha
  · rw [List.mem_singleton.mp (mem_touchedBy.mp ha).1] at hlt
    exact absurd hlt (by decide)
  · rw [List.mem_singleton.mp ha] at hlt
    exact absurd hlt (by decide)

end Rkvs.Analysis

import Rkvs.Analysis.CompactionLookups
import Rkvs.Interface.ReadOrder

/-!
# Reads find the newest version

A read asks the levels in their order and stops at the first that has the key. In a partitioned level
it asks one segment only, and in level zero it takes the newest of all.
-/

set_option autoImplicit false

namespace Rkvs.Analysis

open Rkvs.Library Rkvs.Model Rkvs.Interface

section
variable {c : Sst.LevelContainer} (h : Layered c)
include h

/-- INTERNAL: the segments of a level are among those of the container. -/
theorem ranged_of_level {level : Sst.PartitionedLevel} (hlevel : level ∈ c.partitionedLevels) :
    ∀ s ∈ level.segments, Ranged s := fun s hs =>
  h.ranged s (List.mem_append_right _ (List.mem_flatMap.mpr ⟨level, hlevel, hs⟩))

/-- INTERNAL: the partitioned levels give the newest version that they hold.
SOURCE: sstable.rs:73-83; level.rs:346-351 -/
theorem lookupLevels_newest (key : String) :
    Newest (c.partitionedLevels.flatMap fun level => allEntries level.segments) key
      (lookupLevels key c.partitionedLevels) := by
  have hbehind := List.pairwise_map.mp (List.pairwise_cons.mp h.newer).2
  refine isNewest_findSome? hbehind ?_
  intro level hlevel
  exact newest_entryFor
    (ranged_nodup_keys (h.partitioned level hlevel) (ranged_of_level h hlevel)) key

/-- A read gives the newest version of the key in all segments of all levels, and nothing if and only
if no segment holds the key.
SOURCE: sstable.rs:61-86; level.rs:278-296, 346-351, 415-426 -/
theorem read_finds_newest (key : String) :
    ∃ r, c.get key = .ok r ∧ Newest (allEntries (allSegments c)) key r ∧
      (r = none ↔ ∀ s ∈ allSegments c, ∀ e ∈ entriesOf s, e.key ≠ key) := by
  obtain ⟨r, hzero, hnewest⟩ := ranged_overlapping_get
    (fun s hs => h.ranged s (List.mem_append_left _ hs)) key
  have hlevels : Sst.LevelContainer.getFromLevels key c.partitionedLevels =
      .ok (lookupLevels key c.partitionedLevels) :=
    getFromLevels_of_gets fun level hlevel =>
      ranged_partitioned_get (h.partitioned level hlevel) (ranged_of_level h hlevel) rfl key
  have hnewer : NewerThan SsTableEntry.key SsTableEntry.sequenceNumber
      (allEntries c.levelZero.segments)
      (c.partitionedLevels.flatMap fun level => allEntries level.segments) := by
    intro e he f hf
    obtain ⟨level, hlevel, hfl⟩ := List.mem_flatMap.mp hf
    exact (List.pairwise_cons.mp h.newer).1 _ (List.mem_map_of_mem hlevel) e he f hfl
  have hboth : Newest (allEntries (allSegments c)) key
      (r.or (lookupLevels key c.partitionedLevels)) := by
    have hall : allEntries (allSegments c) = allEntries c.levelZero.segments ++
        c.partitionedLevels.flatMap fun level => allEntries level.segments := by
      unfold allSegments
      rw [allEntries_append]
      unfold allEntries
      rw [List.flatMap_assoc]
    rw [hall]
    exact hnewest.append_of_newer hnewer (lookupLevels_newest h key)
  refine ⟨r.or (lookupLevels key c.partitionedLevels), ?_, hboth, ?_⟩
  · unfold Sst.LevelContainer.get
    rw [hzero, exec_ok_bind]
    cases r with
    | none => exact hlevels
    | some e => rfl
  · constructor
    · intro hnone s hs e he
      rw [hnone] at hboth
      exact hboth e (mem_allEntries.mpr ⟨s, hs, he⟩)
    · intro hall
      cases hr : r.or (lookupLevels key c.partitionedLevels) with
      | none => rfl
      | some e =>
        rw [hr] at hboth
        obtain ⟨s, hs, he⟩ := mem_allEntries.mp hboth.1
        exact absurd hboth.2.1 (hall s hs e he)

end

theorem entriesOf_withRange (seg : Sst.Segment) (first last : String) :
    entriesOf { seg with firstKey := first, lastKey := last } = entriesOf seg := rfl

/-- A segment with a version of a, whose range is wider. -/
def wideSegment : Sst.Segment := { oneKey 1 1 "a" 3 with firstKey := "A", lastKey := "z" }

theorem wideSegment_ranged : entriesOf wideSegment = [⟨"a", some "v", 3⟩] ∧ Ranged wideSegment := by
  have hstored := @oneKey_stored 1 1 3 "a" (by decide) (by norm_num)
  obtain ⟨hasc, hfits, hdata, hend, hindex, -⟩ := ranged_of_whole (whole_of_stored hstored)
  have hentries : entriesOf wideSegment = [⟨"a", some "v", 3⟩] :=
    (entriesOf_withRange (oneKey 1 1 "a" 3) "A" "z").trans (entriesOf_eq hstored)
  rw [entriesOf_eq hstored, ← hentries] at hasc hfits hdata hend hindex
  refine ⟨hentries, hasc, hfits, hdata, hend, hindex, ?_⟩
  intro e he
  rw [hentries] at he
  rw [List.mem_singleton.mp he]
  exact ⟨show "A" ≤ "a" by decide, show "a" ≤ "z" by decide⟩

/-- A newer version in level zero, and one in level one. -/
theorem read_finds_newest_two : ∃ c : Sst.LevelContainer, Layered c ∧
    ∃ r, c.get "a" = .ok r ∧ Newest (allEntries (allSegments c)) "a" r := by
  have hkey : (asBytes "a").length < 2 ^ 31 := by decide
  obtain ⟨hwide, hwideRanged⟩ := wideSegment_ranged
  have hranged : ∀ s ∈ [oneKey 0 1 "a" 7, wideSegment], Ranged s := by
    intro s hs
    obtain rfl | rfl := List.mem_pair.mp hs
    · exact ranged_of_whole (whole_of_stored (oneKey_stored hkey (by norm_num)))
    · exact hwideRanged
  have hlayered : Layered ⟨⟨[oneKey 0 1 "a" 7], 100⟩, [⟨[wideSegment], 1000, 1, 1⟩]⟩ := by
    refine ⟨hranged, ?_, List.pairwise_pair.mpr ?_⟩
    · intro level hlevel
      rw [List.mem_singleton.mp hlevel]
      exact List.pairwise_singleton ..
    · intro e he f hf _
      rw [oneKey_entries hkey (by norm_num), List.mem_singleton] at he
      rw [allEntries_singleton, hwide, List.mem_singleton] at hf
      rw [he, hf]
      decide
  obtain ⟨r, hget, hnewest, -⟩ := read_finds_newest hlayered "a"
  exact ⟨_, hlayered, r, hget, hnewest⟩

end Rkvs.Analysis

import Rkvs.Analysis.SstIndex
import Rkvs.Interface.SstLevels
import Rkvs.Library.Highest

/-!
# Lookups in levels

A partitioned level finds the entry of a key if it holds one. Level zero finds the newest.
-/

set_option autoImplicit false

namespace Rkvs.Analysis

open Rkvs.Library Rkvs.Model Rkvs.Interface

/-! ## Segments -/

/-- INTERNAL: the highest number with one more segment. -/
theorem highestNumber_append (segments : List Sst.Segment) (s : Sst.Segment) :
    Sst.highestNumber (segments ++ [s]) = max (Sst.highestNumber segments) s.number :=
  highest_append_singleton Sst.Segment.number segments s

/-- INTERNAL: a bound on all numbers bounds the highest one. -/
theorem highestNumber_le {segments : List Sst.Segment} {n : ℕ}
    (h : ∀ s ∈ segments, s.number ≤ n) : Sst.highestNumber segments ≤ n :=
  (highest_le_iff Sst.Segment.number).mpr h

/-- INTERNAL: no segment has a higher number. -/
theorem le_highestNumber {segments : List Sst.Segment} {s : Sst.Segment} (h : s ∈ segments) :
    s.number ≤ Sst.highestNumber segments := le_highest Sst.Segment.number h

/-- INTERNAL: the data block is read as it was written. -/
theorem entriesOf_opened {seg : Sst.Segment} {es : List SsTableEntry} (h : Opened seg es) :
    entriesOf seg = es := by
  obtain ⟨rest, -, hfile⟩ := h.data
  have hread : Sst.Segment.readTableEntries seg.file 0 seg.dataBlockEnd = .ok es :=
    readTableEntries_ok [] rest h.fits (by simpa using hfile) rfl (by simpa using h.dataEnd)
  unfold entriesOf
  rw [hread]

/-- INTERNAL: the entries of a segment are the ones its file holds. -/
theorem entriesOf_eq {seg : Sst.Segment} {es : List SsTableEntry} (h : Stored seg es) :
    entriesOf seg = es := entriesOf_opened (opened_of_stored h)

/-- INTERNAL: a segment whose file holds what it says is whole. -/
theorem whole_of_stored {seg : Sst.Segment} {es : List SsTableEntry} (h : Stored seg es) :
    Whole seg := by
  unfold Whole
  rwa [entriesOf_eq h]

/-- INTERNAL: an opened segment can be read. -/
theorem legible_of_opened {seg : Sst.Segment} {es : List SsTableEntry} (h : Opened seg es) :
    Legible seg := by
  unfold Legible
  rwa [entriesOf_opened h]

/-- INTERNAL: an opened segment has an entry. -/
theorem legible_ne_nil {seg : Sst.Segment} (h : Legible seg) : entriesOf seg ≠ [] := by
  intro hnil
  have hfirst := h.first
  rw [hnil] at hfirst
  cases hfirst

section
variable {seg : Sst.Segment} (h : Whole seg)
include h

/-- A lookup in a whole segment finds its entry of the key.
SOURCE: level/segment.rs:157-178 -/
theorem whole_get (key : String) : seg.get key = .ok (entryFor (entriesOf seg) key) := get_eq h key

/-- INTERNAL: the first key of a segment is the key of an entry. -/
theorem exists_first : ∃ e ∈ entriesOf seg, e.key = seg.firstKey := by
  obtain ⟨e, he, hkey⟩ := Option.map_eq_some_iff.mp h.first
  exact ⟨e, List.mem_of_head? he, hkey⟩

/-- INTERNAL: the last key of a segment is the key of an entry. -/
theorem exists_last : ∃ e ∈ entriesOf seg, e.key = seg.lastKey := by
  obtain ⟨e, he, hkey⟩ := Option.map_eq_some_iff.mp h.last
  exact ⟨e, List.mem_of_getLast? he, hkey⟩

/-- The keys of a segment are in its range. -/
theorem key_in_range {e : SsTableEntry} (he : e ∈ entriesOf seg) :
    seg.firstKey ≤ e.key ∧ e.key ≤ seg.lastKey := by
  obtain ⟨first, hfirst, hfirstKey⟩ := Option.map_eq_some_iff.mp h.first
  obtain ⟨last, hlast, hlastKey⟩ := Option.map_eq_some_iff.mp h.last
  have hasc := h.ascending
  rw [← hfirstKey, ← hlastKey]
  constructor
  · obtain ⟨es, hes⟩ := List.head?_eq_some_iff.mp hfirst
    rw [hes] at he hasc
    obtain rfl | he := List.mem_cons.mp he
    · exact le_refl _
    · exact ((List.pairwise_cons.mp hasc).1 e he).le
  · obtain ⟨es, hes⟩ := List.getLast?_eq_some_iff.mp hlast
    rw [hes] at he hasc
    obtain he | he := List.mem_append.mp he
    · exact ((List.pairwise_append.mp hasc).2.2 e he last (List.mem_singleton_self _)).le
    · rw [List.mem_singleton.mp he]

/-- INTERNAL: the first key of a segment is not above the last one. -/
theorem firstKey_le_lastKey : seg.firstKey ≤ seg.lastKey := by
  obtain ⟨e, he, hkey⟩ := exists_first h
  exact hkey ▸ (key_in_range h he).2

/-- INTERNAL: a whole segment has its keys between the first and the last one. -/
theorem ranged_of_whole : Ranged seg :=
  ⟨h.ascending, h.fits, h.data, h.dataEnd, h.index, fun _ he => key_in_range h he⟩

end

/-- INTERNAL: a lookup does not use the key range of the segment. -/
theorem get_withRange (seg : Sst.Segment) (first last key : String) :
    Sst.Segment.get { seg with firstKey := first, lastKey := last } key = seg.get key := rfl

/-- INTERNAL: a lookup in such a segment finds its entry of the key. -/
theorem ranged_get {seg : Sst.Segment} (h : Ranged seg) (key : String) :
    seg.get key = .ok (entryFor (entriesOf seg) key) := by
  cases hes : entriesOf seg with
  | nil =>
    -- nothing is indexed, and nothing is read
    have hindex := h.index
    rw [hes] at hindex
    have hnone : seg.index.indices = [] := List.sublist_nil.mp hindex
    have hend := h.dataEnd
    rw [hes] at hend
    unfold Sst.Segment.get Sst.SegmentIndex.find
    rw [hnone]
    simp only [exec_pure, exec_ok_bind, Option.getD_none, hend]
    rfl
  | cons e es =>
    obtain ⟨last, hlast⟩ : ∃ last, (e :: es).getLast? = some last := ⟨_, List.getLast?_cons ..⟩
    have hstored : Stored { seg with firstKey := e.key, lastKey := last.key } (e :: es) := by
      rw [← hes]
      refine ⟨h.ascending, h.fits, h.data, h.dataEnd, h.index, ?_, ?_⟩
      · rw [hes]
        rfl
      · rw [hes, hlast]
        rfl
    rw [← get_withRange seg e.key last.key, get_eq hstored]

/-- INTERNAL: two segments that do not overlap lie one after the other. -/
theorem not_overlaps_iff {s t : Sst.Segment} :
    ¬s.overlaps t ↔ s.lastKey < t.firstKey ∨ t.lastKey < s.firstKey := by
  unfold Sst.Segment.overlaps
  rw [not_and_or, not_le, not_le]

/-- INTERNAL: overlapping does not depend on the order. -/
theorem overlaps_symm {s t : Sst.Segment} (h : ¬s.overlaps t) : ¬t.overlaps s := by
  rw [not_overlaps_iff] at h ⊢
  exact h.symm

/-- A segment file without an index that holds the entries. -/
def segmentHolding (filepath : String) (levelNumber number : ℕ) (es : List SsTableEntry) :
    Sst.Segment where
  file := segmentBytes es []
  filepath := filepath
  index := Sst.SegmentIndex.new
  highestSequenceNo := es.foldl (fun n e => if e.sequenceNumber > n then e.sequenceNumber else n) 0
  size := (segmentBytes es []).length
  dataBlockEnd := (dataBlock es).length
  levelNumber := levelNumber
  number := number
  firstKey := (es.head?.map SsTableEntry.key).getD ""
  lastKey := (es.getLast?.map SsTableEntry.key).getD ""

/-- INTERNAL: the segment of these entries holds them. -/
theorem segmentHolding_stored {filepath : String} {levelNumber number : ℕ}
    {es : List SsTableEntry} (hne : es ≠ []) (hasc : Ascending es) (hfits : ∀ e ∈ es, EntryFits e) :
    Stored (segmentHolding filepath levelNumber number es) es := by
  obtain ⟨e, es', rfl⟩ := List.exists_cons_of_ne_nil hne
  refine ⟨hasc, hfits, ⟨Sst.footerToBytes (dataBlock (e :: es')).length, ?_, ?_⟩, rfl,
    List.nil_sublist _, rfl, ?_⟩
  · simp [Sst.footerToBytes, Sst.MAGIC_BYTES]
  · show segmentBytes (e :: es') [] = _
    unfold segmentBytes
    rw [List.flatMap_nil, List.append_nil]
  · show ((e :: es').getLast?.map SsTableEntry.key) =
      some (((e :: es').getLast?.map SsTableEntry.key).getD "")
    rw [List.getLast?_cons]
    rfl

/-! ## Partitioned levels -/

/-- INTERNAL: an entry of several segments is an entry of one of them. -/
theorem mem_allEntries {segments : List Sst.Segment} {e : SsTableEntry} :
    e ∈ allEntries segments ↔ ∃ s ∈ segments, e ∈ entriesOf s := List.mem_flatMap

/-- Where no key occurs twice an entry is found under its key. -/
theorem entryFor_of_mem {es : List SsTableEntry} (h : (es.map SsTableEntry.key).Nodup)
    {e : SsTableEntry} (he : e ∈ es) : entryFor es e.key = some e := by
  cases hfind : entryFor es e.key with
  | none =>
    have hnot := List.find?_eq_none.mp hfind e he
    simp at hnot
  | some f =>
    have hkey : f.key = e.key := by simpa using List.find?_some hfind
    rw [List.inj_on_of_nodup_map h (List.mem_of_find?_eq_some hfind) he hkey]

/-- INTERNAL: what is found for a key is an entry of this key. -/
theorem mem_of_entryFor {es : List SsTableEntry} {key : String} {e : SsTableEntry}
    (h : entryFor es key = some e) : e ∈ es ∧ e.key = key :=
  ⟨List.mem_of_find?_eq_some h, by simpa using List.find?_some h⟩

/-- INTERNAL: the entries of one segment. -/
theorem allEntries_singleton (s : Sst.Segment) : allEntries [s] = entriesOf s :=
  List.flatMap_singleton ..

/-- INTERNAL: the entries of two lists of segments. -/
theorem allEntries_append (segments others : List Sst.Segment) :
    allEntries (segments ++ others) = allEntries segments ++ allEntries others :=
  List.flatMap_append

section
variable {segments : List Sst.Segment} (hpart : Partitioned segments)
  (hranged : ∀ s ∈ segments, Ranged s)

include hpart in
/-- Two segments of which the ranges have a key in common are one. -/
theorem eq_of_contains {s t : Sst.Segment} (hs : s ∈ segments) (ht : t ∈ segments) {key : String}
    (hskey : s.firstKey ≤ key ∧ key ≤ s.lastKey) (htkey : t.firstKey ≤ key ∧ key ≤ t.lastKey) :
    s = t := by
  by_contra hne
  have : Std.Symm fun s t : Sst.Segment => ¬s.overlaps t := ⟨fun _ _ => overlaps_symm⟩
  exact hpart.forall hs ht hne ⟨htkey.1.trans hskey.2, hskey.1.trans htkey.2⟩

include hpart hranged

/-- No key is in two places. -/
theorem ranged_nodup_keys : ((allEntries segments).map SsTableEntry.key).Nodup := by
  induction segments with
  | nil => exact List.nodup_nil
  | cons s segments ih =>
    obtain ⟨hhead, htail⟩ := List.pairwise_cons.mp hpart
    have hs := hranged s (List.mem_cons_self ..)
    have hsorted : ((entriesOf s).map SsTableEntry.key).Pairwise (· < ·) :=
      List.pairwise_map.mpr hs.ascending
    show ((entriesOf s ++ allEntries segments).map SsTableEntry.key).Nodup
    rw [List.map_append, List.nodup_append]
    refine ⟨hsorted.imp fun hlt => hlt.ne,
      ih htail fun t ht => hranged t (List.mem_cons_of_mem _ ht), ?_⟩
    rintro key hkey key' hkey' rfl
    obtain ⟨e, he, rfl⟩ := List.mem_map.mp hkey
    obtain ⟨f, hf, hfkey⟩ := List.mem_map.mp hkey'
    obtain ⟨t, ht, hft⟩ := mem_allEntries.mp hf
    have hte := (hranged t (List.mem_cons_of_mem _ ht)).range f hft
    rw [hfkey] at hte
    have hse := hs.range e he
    exact hhead t ht ⟨hte.1.trans hse.2, hse.1.trans hte.2⟩

/-- The segment that holds a key is found.
SOURCE: level.rs:415-426 -/
theorem ranged_findContainingSegment {level : Sst.PartitionedLevel} (hlevel : level.segments = segments)
    {s : Sst.Segment} (hs : s ∈ segments) {e : SsTableEntry} (he : e ∈ entriesOf s) :
    level.findContainingSegment e.key = some s := by
  have hrange := (hranged s hs).range e he
  unfold Sst.PartitionedLevel.findContainingSegment
  rw [hlevel]
  cases hfind : segments.find? fun t => t.firstKey ≤ e.key ∧ e.key ≤ t.lastKey with
  | none =>
    have hnot := List.find?_eq_none.mp hfind s hs
    exact absurd (decide_eq_true hrange) hnot
  | some t =>
    have ht : t.firstKey ≤ e.key ∧ e.key ≤ t.lastKey := by simpa using List.find?_some hfind
    rw [eq_of_contains hpart (List.mem_of_find?_eq_some hfind) hs ht hrange]

/-- A partitioned level finds what it holds.
SOURCE: level.rs:346-351 -/
theorem ranged_partitioned_get {level : Sst.PartitionedLevel} (hlevel : level.segments = segments)
    (key : String) : level.get key = .ok (entryFor (allEntries segments) key) := by
  have hnodup := ranged_nodup_keys hpart hranged
  cases hentry : entryFor (allEntries segments) key with
  | some e =>
    obtain ⟨hmem, rfl⟩ := mem_of_entryFor hentry
    obtain ⟨s, hs, he⟩ := mem_allEntries.mp hmem
    unfold Sst.PartitionedLevel.get
    rw [ranged_findContainingSegment hpart hranged hlevel hs he]
    dsimp only
    rw [ranged_get (hranged s hs), entryFor_eq_some (hranged s hs).ascending he]
  | none =>
    have hnone := List.find?_eq_none.mp hentry
    unfold Sst.PartitionedLevel.get
    cases hfind : level.findContainingSegment key with
    | none => rfl
    | some s =>
      have hs : s ∈ segments := hlevel ▸ List.mem_of_find?_eq_some hfind
      dsimp only
      rw [ranged_get (hranged s hs)]
      refine congrArg Except.ok (List.find?_eq_none.mpr fun e he => ?_)
      exact hnone e (mem_allEntries.mpr ⟨s, hs, he⟩)

end

section
variable {segments : List Sst.Segment} (hpart : Partitioned segments)
  (hwhole : ∀ s ∈ segments, Whole s)

include hpart hwhole

/-- Where the ranges are exact, no key is in two places. -/
theorem nodup_keys : ((allEntries segments).map SsTableEntry.key).Nodup :=
  ranged_nodup_keys hpart fun s hs => ranged_of_whole (hwhole s hs)

/-- INTERNAL: the segment found for a key that is there is the one that holds it.
SOURCE: level.rs:415-426 -/
theorem findContainingSegment_eq {level : Sst.PartitionedLevel} (hlevel : level.segments = segments)
    {s : Sst.Segment} (hs : s ∈ segments) {e : SsTableEntry} (he : e ∈ entriesOf s) :
    level.findContainingSegment e.key = some s :=
  ranged_findContainingSegment hpart (fun t ht => ranged_of_whole (hwhole t ht)) hlevel hs he

/-- A lookup in a partitioned level finds the entry of the key.
SOURCE: level.rs:346-351 -/
theorem partitioned_get {level : Sst.PartitionedLevel} (hlevel : level.segments = segments)
    (key : String) : level.get key = .ok (entryFor (allEntries segments) key) :=
  ranged_partitioned_get hpart (fun s hs => ranged_of_whole (hwhole s hs)) hlevel key

end

/-! ## Level zero -/

/-- INTERNAL: the only entry of a key is its newest one. -/
theorem newest_entryFor {es : List SsTableEntry} (h : (es.map SsTableEntry.key).Nodup)
    (key : String) : Newest es key (entryFor es key) := isNewest_find h key

/-- INTERNAL: ascending keys are different ones. -/
theorem ascending_nodup {es : List SsTableEntry} (h : Ascending es) :
    (es.map SsTableEntry.key).Nodup := by
  have hsorted : (es.map SsTableEntry.key).Pairwise (· < ·) := List.pairwise_map.mpr h
  exact hsorted.imp fun hlt => hlt.ne

/-- INTERNAL: the keys of a segment are different ones. -/
theorem whole_nodup {s : Sst.Segment} (h : Whole s) :
    ((entriesOf s).map SsTableEntry.key).Nodup := ascending_nodup h.ascending

/-- INTERNAL: one more segment is looked at.
SOURCE: level.rs:281-294 -/
theorem overlappingStep_eq {s : Sst.Segment} (hs : Ranged s) (key : String)
    (curr : Option SsTableEntry) :
    (do
      match ← s.get key with
      | none => return curr
      | some entry =>
        match curr with
        | none => return some entry
        | some currE =>
          if currE.sequenceNumber > entry.sequenceNumber then return some currE
          else return some entry : Exec (Option SsTableEntry)) =
      .ok (newerOf SsTableEntry.sequenceNumber curr (entryFor (entriesOf s) key)) := by
  rw [ranged_get hs, exec_ok_bind]
  cases entryFor (entriesOf s) key with
  | none => cases curr <;> rfl
  | some entry =>
    cases curr with
    | none => rfl
    | some currE =>
      dsimp only
      rw [newerOf]
      split <;> rfl

/-- INTERNAL: a loop of which no round fails. -/
theorem foldlM_ok {α β : Type} {f : β → α → Exec β} {g : β → α → β} {xs : List α}
    (h : ∀ b, ∀ x ∈ xs, f b x = .ok (g b x)) (b : β) :
    xs.foldlM f b = .ok (xs.foldl g b) := by
  induction xs generalizing b with
  | nil => rfl
  | cons x xs ih =>
    rw [List.foldlM_cons, h b x (List.mem_cons_self ..), exec_ok_bind]
    exact ih (fun b y hy => h b y (List.mem_cons_of_mem _ hy)) _

/-- INTERNAL: going on with more segments keeps the newest. -/
theorem newest_foldl {segments : List Sst.Segment} (hranged : ∀ s ∈ segments, Ranged s)
    {key : String} {seen : List SsTableEntry} {r : Option SsTableEntry} (h : Newest seen key r) :
    Newest (seen ++ allEntries segments) key (segments.foldl (fun r s =>
      newerOf SsTableEntry.sequenceNumber r (entryFor (entriesOf s) key)) r) := by
  induction segments generalizing seen r with
  | nil => rwa [show allEntries [] = [] from rfl, List.append_nil]
  | cons s segments ih =>
    have hasc := (hranged s (List.mem_cons_self ..)).ascending
    have hs := newest_entryFor (ascending_nodup hasc) key
    have hrest := ih (fun t ht => hranged t (List.mem_cons_of_mem _ ht)) (h.append hs)
    rwa [List.append_assoc] at hrest

/-- Level zero finds the newest version of a key.
SOURCE: level.rs:278-296 -/
theorem ranged_overlapping_get {level : Sst.OverlappingLevel}
    (hranged : ∀ s ∈ level.segments, Ranged s) (key : String) :
    ∃ r, level.get key = .ok r ∧ Newest (allEntries level.segments) key r := by
  refine ⟨_, foldlM_ok (fun r s hs => overlappingStep_eq (hranged s hs) key r) none, ?_⟩
  have hnone : Newest [] key none := fun e he => absurd he List.not_mem_nil
  exact newest_foldl hranged hnone

/-- A lookup in level zero finds the newest entry of the key.
SOURCE: level.rs:278-296 -/
theorem overlapping_get {level : Sst.OverlappingLevel} (hwhole : ∀ s ∈ level.segments, Whole s)
    (key : String) :
    ∃ r, level.get key = .ok r ∧ Newest (allEntries level.segments) key r :=
  ranged_overlapping_get (fun s hs => ranged_of_whole (hwhole s hs)) key

end Rkvs.Analysis

import Rkvs.Analysis.NewestMerge

/-!
# A merge of append-only data

Where no key occurs twice the rounds of a merge come to an end, and every entry is written. But what
a round leaves behind is written behind what it has taken, so the files are in the order of the keys
only if the segments are merged in turn.
-/

set_option autoImplicit false

namespace Rkvs.Analysis

open Rkvs.Library Rkvs.Model Rkvs.Interface

section
variable {level : Sst.PartitionedLevel} {segments : List Sst.Segment} {d : Dir} {targetSize : ℕ}

/-- INTERNAL: a data block of one segment is no longer than all.
SOURCE: level/segment.rs:459-468 -/
theorem short_of_room (hall : AppendOnly segments) (hroom : RoomFor level segments d)
    {s : Sst.Segment} (hs : s ∈ segments) : s.dataBlockEnd + 1 < 2 ^ 64 := by
  have hsub : (entriesOf s).Sublist (allEntries segments) :=
    List.sublist_flatten_of_mem (List.mem_map_of_mem hs)
  have hbytes : framedBytes (entriesOf s) ≤ framedBytes (allEntries segments) :=
    (hsub.map _).sum_le_sum fun _ _ => Nat.zero_le _
  have hshort := hroom.short
  rw [(hall.whole s hs).dataEnd, dataBlock_length]
  omega

/-- INTERNAL: segments of append-only data can be merged. -/
theorem mergeable_of_appendOnly (hall : AppendOnly segments) (hroom : RoomFor level segments d) :
    Mergeable segments :=
  ⟨hall.whole, hall.keys, hall.fits, fun _ hs => short_of_room hall hroom hs⟩

/-- INTERNAL: whatever comes in the order of the keys can be written. -/
theorem writable_of_room (hall : AppendOnly segments) (hroom : RoomFor level segments d)
    (hlevel : level.levelNumber < 2 ^ 32) {entries : List SsTableEntry}
    (hperm : entries.Perm (allEntries segments)) : Writable level entries := by
  have hbytes : framedBytes entries = framedBytes (allEntries segments) := by
    unfold framedBytes
    exact (hperm.map fun e => e.len + 4).sum_eq
  have hlength := hperm.length_eq
  have hshort := hroom.short
  have hnumbers := hroom.numbered
  refine ⟨fun e he => ?_, by omega, hlevel, by omega⟩
  exact entryFits_of_whole hall.whole e (hperm.mem_iff.mp he)

/-- INTERNAL: the first segment of a merge is empty.
SOURCE: level.rs:495-503 -/
theorem createSegment_holds (hroom : RoomFor level segments d) (hlevel : level.levelNumber < 2 ^ 32)
    (hsome : segments ≠ []) (hwhole : ∀ s ∈ segments, Whole s) (targetSize : ℕ) :
    ∃ w d₁, (Sst.createSegment targetSize level.levelNumber (level.highestSegmentNumber + 1)
        level.indexSparsityFactor).run d = .ok w d₁ ∧
      OutputHolds level targetSize d₁ ⟨w, level.highestSegmentNumber + 2, []⟩ [] [] := by
  have hlength := length_le_allEntries fun s hs => legible_ne_nil (legible_of_whole (hwhole s hs))
  have hpos := List.length_pos_iff.mpr hsome
  have hnumber := hroom.numbered
  obtain ⟨w, d₁, hcreate, hwriting, hwrote, hfactor, htarget, hname⟩ :=
    @createSegment_ok d targetSize level.levelNumber (level.highestSegmentNumber + 1)
      level.indexSparsityFactor ⟨hlevel, by omega⟩
      (fun path hpath => hroom.fresh _ path (Nat.lt_succ_self _) hpath) hroom.calm
  refine ⟨w, d₁, hcreate, hwrote.faults hroom.calm, hwriting, htarget, hfactor, hname, rfl,
    fun n path hn hpath => ?_, fun s hs => absurd hs List.not_mem_nil, rfl, fun _ => rfl⟩
  have hn : level.highestSegmentNumber + 2 ≤ n := hn
  rw [hwrote.names path (filename_ne hpath hname (by omega))]
  exact hroom.fresh n path (by omega) hpath

/-- INTERNAL: the last segment is finished, for it has an entry.
SOURCE: level.rs:547-554 -/
theorem finishOutput_ok {d' : Dir} {out : Sst.Output} {done es : List SsTableEntry}
    (h : OutputHolds level targetSize d' out done es) (hsome : done ++ es ≠ [])
    (hwritable : Writable level (done ++ es)) :
    ∃ segments d'', (finishOutput out).run d' = .ok segments d'' ∧ d''.faults = [] := by
  have hes : es ≠ [] := by
    intro hnil
    rw [h.started hnil, hnil] at hsome
    exact hsome rfl
  have hlast := hwritable.sublist (List.sublist_append_right done es)
  obtain ⟨w, s, d'', hfinish, hwrote, -⟩ :=
    finishSegment_ok h.writing h.name h.calm hes hlast.fits hlast.short
  refine ⟨out.res ++ [s], d'', ?_, hwrote.faults h.calm⟩
  unfold finishOutput
  rw [if_pos h.writing.unfinished, run_bind_ok hfinish]
  rfl

/-- INTERNAL: a merge in turn returns, with a target above the length of a footer.
SOURCE: level.rs:479-555 -/
theorem mergeAndWriteTo_ok (hall : AppendOnly segments) (hroom : RoomFor level segments d)
    (hlevel : level.levelNumber < 2 ^ 32) (hsparsity : 1 ≤ level.indexSparsityFactor)
    (hturn : MergesInTurn segments) (htarget : 12 < targetSize) {fuel : ℕ}
    (hfuel : (allEntries segments).length < fuel) (orders : ℕ → Sst.IterationOrder) :
    ∃ out d', (Sst.mergeAndWriteTo orders targetSize fuel level segments).run d = .ok out d' ∧
      d'.faults = [] := by
  obtain ⟨bufs, hloaded, hpending, hstart⟩ :=
    mergeAndWriteTo_start (mergeable_of_appendOnly hall hroom) hall.nonempty
  have hentries : (bufs.map pending).flatten = allEntries segments := by
    rw [hpending, allEntries_flatten]
  have hlength : (bufs.map pending).flatten.length < fuel := hentries ▸ hfuel
  obtain ⟨entries, hmerged, hrounds⟩ := @mergeRounds_of_distinct targetSize level _ bufs orders
    fuel fuel (readBufLen_lt segments) hloaded (hentries ▸ hall.distinct) hlength hlength
  have hasc := hmerged.inTurn.mp (hpending ▸ hturn)
  have hperm := hmerged.covers.perm hasc (hentries ▸ hall.distinct)
  rw [hentries] at hperm
  have hwritable := writable_of_room hall hroom hlevel hperm
  obtain ⟨w, d₁, hcreate, hout⟩ := createSegment_holds hroom hlevel hall.nonempty hall.whole
    targetSize
  obtain ⟨out, d₂, done, es, hwrite, hfinal, hdone⟩ := writeBuf_ok htarget
    (Nat.one_le_iff_ne_zero.mp hsparsity) hout (by simpa using hwritable)
  rw [List.append_nil, List.nil_append] at hdone
  have hsome : done ++ es ≠ [] := by
    rw [hdone]
    intro hnil
    have hlength := length_le_allEntries fun s hs =>
      legible_ne_nil (legible_of_whole (hall.whole s hs))
    have hpos := List.length_pos_iff.mpr hall.nonempty
    rw [← hperm.length_eq, hnil] at hlength
    exact absurd (hpos.trans_le hlength) (lt_irrefl _)
  obtain ⟨res, d₃, hfinish, hcalm⟩ := finishOutput_ok hfinal hsome (hdone ▸ hwritable)
  have hnumber := hroom.numbered
  refine ⟨res, d₃, ?_, hcalm⟩
  rw [hstart, checkedAdd_ok (by omega), run_bind_ok (run_liftExec_ok ..), run_bind_ok hcreate,
    checkedAdd_ok (by omega), run_bind_ok (run_liftExec_ok ..),
    run_bind_ok (hrounds _ _ _ _ hwrite)]
  exact hfinish

/-- INTERNAL: a merge in turn that returns has written every entry once, in the order of the
keys. -/
theorem mergedAll_of_inTurn (hall : AppendOnly segments) (hroom : RoomFor level segments d)
    (hturn : MergesInTurn segments) {orders : ℕ → Sst.IterationOrder} {fuel : ℕ}
    {out : List Sst.Segment} {d' : Dir}
    (hrun : (Sst.mergeAndWriteTo orders targetSize fuel level segments).run d = .ok out d') :
    MergedAll segments out := by
  obtain ⟨hmerged, hintact⟩ := mergeAndWriteTo_holds (mergeable_of_appendOnly hall hroom)
    (fun k hk path hpath => hroom.fresh k path hk hpath) hrun
  have hasc := hmerged.inTurn.mp hturn
  have hcovers := hmerged.covers
  rw [allEntries_flatten] at hcovers
  have hwhole := (mergedFiles_of_ascending hintact hasc hcovers).whole
  exact ⟨hcovers.perm hasc hall.distinct, hasc, ranges_of_ascending hwhole hasc, hwhole,
    fun s hs => legible_ne_nil (hintact s hs)⟩

/-- INTERNAL: with a target that a footer fills the first segment is finished before it has an
entry, and does not open.
SOURCE: level.rs:520-526; level/segment.rs:412-414 -/
theorem mergeAndWriteTo_unopened (hall : AppendOnly segments) (hroom : RoomFor level segments d)
    (htarget : targetSize ≤ 12) {orders : ℕ → Sst.IterationOrder} {fuel : ℕ}
    {out : List Sst.Segment} {d' : Dir} :
    (Sst.mergeAndWriteTo orders targetSize fuel level segments).run d ≠ .ok out d' := by
  intro hrun
  obtain ⟨entries, w, d₁, last, d₂, hmerged, hcreate, hwrite, -⟩ :=
    mergeAndWriteTo_eq_ok (mergeable_of_appendOnly hall hroom) hall.nonempty hrun
  obtain ⟨hwriting, hsame⟩ := createSegment_writing
    (fun path hpath => hroom.fresh _ path (Nat.lt_succ_self _) hpath) hcreate
  -- something is written
  obtain ⟨s, hs⟩ := List.exists_mem_of_ne_nil _ hall.nonempty
  obtain ⟨e, he⟩ := List.exists_mem_of_ne_nil _ (legible_ne_nil (legible_of_whole (hall.whole s hs)))
  have hmem : e ∈ (segments.map entriesOf).flatten :=
    List.mem_flatten.mpr ⟨_, List.mem_map_of_mem hs, he⟩
  obtain hnone | ⟨first, hfirst, -⟩ := hmerged.covers.covers e hmem
  · exact absurd hnone List.not_mem_nil
  obtain ⟨x, rest, rfl⟩ := List.exists_cons_of_ne_nil (List.ne_nil_of_mem hfirst)
  obtain ⟨reached, hreached, hempty⟩ :=
    reachedTargetSize_ok hwriting (show 2 * 0 + 12 < 2 ^ 63 by norm_num)
  have htrue : reached = true := (hempty rfl).mpr (hsame ▸ htarget)
  rw [Sst.writeBuf, hreached, run_bind_ok (run_liftExec_ok ..), if_pos htrue] at hwrite
  obtain ⟨⟨w', s'⟩, d₃, hfinish, -⟩ := run_bind_eq_ok hwrite
  exact finishSegment_empty hwriting hfinish

/-- INTERNAL: a merge into a level whose number has more than eight digits stops at the name of the
first new segment.
SOURCE: level.rs:497-502; level/segment.rs:305-314 -/
theorem mergeAndWriteTo_unnamed (hall : AppendOnly segments) (hroom : RoomFor level segments d)
    (hlevel : ¬level.levelNumber < 2 ^ 32) {orders : ℕ → Sst.IterationOrder} {fuel : ℕ}
    {out : List Sst.Segment} {d' : Dir} :
    (Sst.mergeAndWriteTo orders targetSize fuel level segments).run d ≠ .ok out d' := by
  intro hrun
  obtain ⟨entries, w, d₁, last, d₂, -, hcreate, -⟩ :=
    mergeAndWriteTo_eq_ok (mergeable_of_appendOnly hall hroom) hall.nonempty hrun
  obtain ⟨hname, -⟩ := createSegment_eq_ok hcreate
  rw [determineSegmentFilename_eq, if_neg fun h => hlevel h.1] at hname
  cases hname

/-- INTERNAL: what a merge without loss has written is in the order of the keys. -/
theorem inTurn_of_losesNothing (hall : AppendOnly segments) (hroom : RoomFor level segments d)
    (h : LosesNothing targetSize level segments d) : MergesInTurn segments := by
  obtain ⟨rounds, hreturns⟩ := h
  obtain ⟨out, d', hrun, hmerged⟩ := hreturns _ le_rfl fun _ => frontFirst
  obtain ⟨hfrom, -⟩ := mergeAndWriteTo_holds (mergeable_of_appendOnly hall hroom)
    (fun k hk path hpath => hroom.fresh k path hk hpath) hrun
  exact hfrom.inTurn.mpr hmerged.ascending

/-- A merge of append-only data returns segments with all entries, in the order of the keys, if and
only if the target is above the length of a footer, the number of the level fits into a file name
and the segments are merged in turn.
SOURCE: level.rs:479-555; level/segment.rs:305-314, 412-414 -/
theorem merge_loses_nothing_iff (hall : AppendOnly segments) (hroom : RoomFor level segments d)
    (hsparsity : 1 ≤ level.indexSparsityFactor) (targetSize : ℕ) :
    LosesNothing targetSize level segments d ↔
      12 < targetSize ∧ level.levelNumber < 2 ^ 32 ∧ MergesInTurn segments := by
  constructor
  · intro h
    obtain ⟨rounds, hreturns⟩ := id h
    obtain ⟨out, d', hrun, -⟩ := hreturns _ le_rfl fun _ => frontFirst
    refine ⟨?_, ?_, inTurn_of_losesNothing hall hroom h⟩
    · by_contra hle
      exact mergeAndWriteTo_unopened hall hroom (not_lt.mp hle) hrun
    · by_contra hlevel
      exact mergeAndWriteTo_unnamed hall hroom hlevel hrun
  · rintro ⟨htarget, hlevel, hturn⟩
    refine ⟨(allEntries segments).length + 1, fun fuel hfuel orders => ?_⟩
    obtain ⟨out, d', hrun, -⟩ :=
      mergeAndWriteTo_ok hall hroom hlevel hsparsity hturn htarget hfuel orders
    exact ⟨out, d', hrun, mergedAll_of_inTurn hall hroom hturn hrun⟩

end

/-! ### Flushed segments with different keys -/

/-- INTERNAL: flushed segments with the entries of some lists. -/
def flushedSegments (lists : List (List SsTableEntry)) : List Sst.Segment :=
  lists.mapIdx fun i es => segmentHolding "" 0 (i + 1) es

/-- INTERNAL: flushed segments hold the lists they were flushed from. -/
theorem entriesOf_flushedSegments {lists : List (List SsTableEntry)}
    (h : ∀ es ∈ lists, es ≠ [] ∧ (es.Pairwise fun e f => e.key < f.key) ∧
      ∀ e ∈ es, e.len < 2 ^ 32 ∧ e.sequenceNumber < 2 ^ 64) :
    (flushedSegments lists).map entriesOf = lists ∧ ∀ s ∈ flushedSegments lists, Whole s := by
  have hstored : ∀ (i : ℕ) es, lists[i]? = some es → Stored (segmentHolding "" 0 (i + 1) es) es := by
    intro i es hi
    obtain ⟨hne, hasc, hfits⟩ := h es (List.mem_of_getElem? hi)
    exact stored_of_checks hne hasc hfits
  constructor
  · apply List.ext_getElem?
    intro i
    unfold flushedSegments
    rw [List.getElem?_map, List.getElem?_mapIdx]
    cases hi : lists[i]? with
    | none => rfl
    | some es => exact congrArg some (entriesOf_eq (hstored i es hi))
  · intro s hs
    obtain ⟨i, hi⟩ := List.mem_iff_getElem?.mp hs
    unfold flushedSegments at hi
    rw [List.getElem?_mapIdx] at hi
    obtain ⟨es, hes, rfl⟩ := Option.map_eq_some_iff.mp hi
    exact whole_of_stored (hstored i es hes)

/-- INTERNAL: such segments are append-only data, if their entries pass some checks. -/
theorem appendOnly_of_checks {lists : List (List SsTableEntry)} (hne : lists ≠ [])
    (h : ∀ es ∈ lists, es ≠ [] ∧ (es.Pairwise fun e f => e.key < f.key) ∧
      ∀ e ∈ es, e.len < 2 ^ 32 ∧ e.sequenceNumber < 2 ^ 64)
    (hkeys : ∀ e ∈ lists.flatten, e.key ≠ "")
    (hdistinct : (lists.flatten.map SsTableEntry.key).Nodup)
    (hfits : ∀ e ∈ lists.flatten,
      e.len + 4 ≤ Sst.MERGE_BUF_MAX_TOTAL_SIZE / lists.length + 1) :
    AppendOnly (flushedSegments lists) := by
  obtain ⟨hentries, hwhole⟩ := entriesOf_flushedSegments h
  have hall : allEntries (flushedSegments lists) = lists.flatten := by
    rw [← allEntries_flatten, hentries]
  have hlength : (flushedSegments lists).length = lists.length := List.length_mapIdx
  refine ⟨?_, hwhole, hall ▸ hkeys, hall ▸ hdistinct, ?_⟩
  · apply List.ne_nil_of_length_pos
    rw [hlength]
    exact List.length_pos_iff.mpr hne
  · rw [hall, hlength]
    exact hfits

/-- INTERNAL: two lists, the second of which begins before the first one ends. -/
def overlapping : List (List SsTableEntry) :=
  [[⟨"a", some "v", 1⟩, ⟨"c", some "v", 2⟩], [⟨"b", some "v", 3⟩, ⟨"d", none, 4⟩]]

/-- INTERNAL: its segments are append-only. -/
theorem overlapping_appendOnly : AppendOnly (flushedSegments overlapping) :=
  appendOnly_of_checks (List.cons_ne_nil _ _) (by decide) (by decide) (by decide)
    (by decide)

/-- INTERNAL: there is room for their merge. -/
theorem overlapping_roomFor : RoomFor ⟨[], 1000, 1, 1⟩ (flushedSegments overlapping) .empty := by
  have hentries : allEntries (flushedSegments overlapping) = overlapping.flatten := by
    rw [← allEntries_flatten, (entriesOf_flushedSegments (by decide)).1]
  refine ⟨rfl, ?_, fun _ path _ _ => List.not_mem_nil, ?_⟩ <;> rw [hentries] <;> decide

/-- They are merged without loss, "a" and "b" in a first round. -/
theorem merge_loses_nothing_overlapping :
    LosesNothing Sst.SEGMENT_SIZE ⟨[], 1000, 1, 1⟩ (flushedSegments overlapping) .empty := by
  refine (merge_loses_nothing_iff overlapping_appendOnly overlapping_roomFor le_rfl
    Sst.SEGMENT_SIZE).mpr ⟨by decide, by norm_num, ?_⟩
  have hkeys : (resultOf (Sst.mergeAndWriteTo (fun _ => frontFirst) Sst.SEGMENT_SIZE 10
      ⟨[], 1000, 1, 1⟩ (flushedSegments overlapping)) .empty).map
        (fun out => (allEntries out).map SsTableEntry.key) = some ["a", "b", "c", "d"] := by
    decide +kernel
  obtain ⟨out, hresult, hout⟩ := Option.map_eq_some_iff.mp hkeys
  obtain ⟨hfrom, -⟩ := mergeAndWriteTo_holds
    (mergeable_of_appendOnly overlapping_appendOnly overlapping_roomFor)
    (fun _ _ _ _ => List.not_mem_nil) (run_of_result hresult)
  refine hfrom.inTurn.mpr (List.pairwise_map.mp ?_)
  rw [hout]
  decide

/-- INTERNAL: three lists, each of which begins before the ones before it end. -/
def threeOverlapping : List (List SsTableEntry) :=
  [[⟨"a", some "v", 1⟩, ⟨"c", some "v", 2⟩, ⟨"z", some "v", 3⟩],
    [⟨"b", some "v", 4⟩, ⟨"e", some "v", 5⟩, ⟨"y", some "v", 6⟩],
    [⟨"d", some "v", 7⟩, ⟨"f", some "v", 8⟩, ⟨"x", some "v", 9⟩]]

/-- INTERNAL: its segments are append-only. -/
theorem threeOverlapping_appendOnly : AppendOnly (flushedSegments threeOverlapping) :=
  appendOnly_of_checks (List.cons_ne_nil _ _) (by decide) (by decide) (by decide)
    (by decide)

/-- INTERNAL: there is room for their merge. -/
theorem threeOverlapping_roomFor :
    RoomFor ⟨[], 1000, 1, 1⟩ (flushedSegments threeOverlapping) .empty := by
  have hentries : allEntries (flushedSegments threeOverlapping) = threeOverlapping.flatten := by
    rw [← allEntries_flatten, (entriesOf_flushedSegments (by decide)).1]
  refine ⟨rfl, ?_, fun _ path _ _ => List.not_mem_nil, ?_⟩ <;> rw [hentries] <;> decide

/-- They are merged to a file that is not in the order of its keys, and "d" is not found there.
SOURCE: level.rs:637-649, 706-717 -/
theorem merge_out_of_order :
    AppendOnly (flushedSegments threeOverlapping) ∧
      RoomFor ⟨[], 1000, 1, 1⟩ (flushedSegments threeOverlapping) .empty ∧
      (∃ s d', (Sst.mergeAndWrite (fun _ => frontFirst) 20 ⟨[], 1000, 1, 1⟩
          (flushedSegments threeOverlapping)).run .empty = .ok [s] d' ∧
        (entriesOf s).map SsTableEntry.key = ["a", "b", "d", "f", "x", "c", "e", "y", "z"] ∧
        s.get "d" = .ok none) ∧
      ¬LosesNothing Sst.SEGMENT_SIZE ⟨[], 1000, 1, 1⟩ (flushedSegments threeOverlapping) .empty := by
  have hkeys : (resultOf (Sst.mergeAndWrite (fun _ => frontFirst) 20 ⟨[], 1000, 1, 1⟩
      (flushedSegments threeOverlapping)) .empty).map
        (fun out => out.map fun s => ((entriesOf s).map SsTableEntry.key, s.get "d")) =
      some [(["a", "b", "d", "f", "x", "c", "e", "y", "z"], .ok none)] := by
    decide +kernel
  obtain ⟨out, hresult, hout⟩ := Option.map_eq_some_iff.mp hkeys
  obtain ⟨s, rfl, hs⟩ := List.map_eq_singleton_iff.mp hout
  obtain ⟨hentries, hget⟩ := Prod.mk.inj hs
  have hrun := run_of_result hresult
  refine ⟨threeOverlapping_appendOnly, threeOverlapping_roomFor, ⟨s, _, hrun, hentries, hget⟩,
    fun hlossless => ?_⟩
  have hturn := inTurn_of_losesNothing threeOverlapping_appendOnly threeOverlapping_roomFor
    hlossless
  obtain ⟨hfrom, -⟩ := mergeAndWriteTo_holds
    (mergeable_of_appendOnly threeOverlapping_appendOnly threeOverlapping_roomFor)
    (fun _ _ _ _ => List.not_mem_nil) hrun
  have hasc := List.pairwise_map.mpr (hfrom.inTurn.mp hturn)
  rw [allEntries_singleton, hentries] at hasc
  revert hasc
  decide

end Rkvs.Analysis

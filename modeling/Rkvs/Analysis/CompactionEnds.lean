import Rkvs.Analysis.Cascade
import Rkvs.Analysis.CopiedSegments
import Rkvs.Analysis.LiveFiles
import Mathlib.Data.List.Sort

/-!
# When a compaction ends

A compaction that comes to new levels gives all of them the target of the first. If what the first
one hands on is over that, the second one is over its target too and hands on the same entries, and
so does every other.
-/

set_option autoImplicit false

namespace Rkvs.Analysis

open Rkvs.Library Rkvs.Model Rkvs.Interface Relation

/-! ## The selection in a new level -/

section
variable {segments selected : List Sst.Segment} {targetSize : ℕ}

/-- INTERNAL: the number of a segment is its place. -/
theorem number_of_place (h : segments.map Sst.Segment.number = List.range' 1 segments.length)
    {s : Sst.Segment} {j : ℕ} (hs : segments[j]? = some s) : s.number = j + 1 := by
  have hj : j < segments.length := (List.getElem?_eq_some_iff.mp hs).1
  have hnumber : (segments.map Sst.Segment.number)[j]? = some s.number := by
    rw [List.getElem?_map, hs]
    rfl
  rw [h, List.getElem?_range' hj] at hnumber
  have hvalue := Option.some.inj hnumber
  omega

/-- INTERNAL: the number of a segment that is alone. -/
theorem numbers_single {s : Sst.Segment} (h : segments = [s]) (hs : s.number = 1) :
    segments.map Sst.Segment.number = List.range' 1 segments.length := by
  rw [h, List.map_singleton, hs]
  rfl

/-- INTERNAL: the number that is looked for gets smaller while the numbers get larger, so they meet
at most once.
SOURCE: level.rs:298-312 -/
theorem takenIn_length_le_one
    (h : segments.map Sst.Segment.number = List.range' 1 segments.length) :
    (takenIn segments 0).length ≤ 1 := by
  have hsame : ∀ p ∈ segments.zipIdx.filter (TakenIn segments 0 ·),
      2 * p.2 + 1 = Sst.highestNumber segments := by
    rintro ⟨s, j⟩ hp
    obtain ⟨hmem, htaken⟩ := List.mem_filter.mp hp
    have hnumber := number_of_place h (List.mk_mem_zipIdx_iff_getElem?.mp hmem)
    have hmeet : s.number + (0 * segments.length + j) = Sst.highestNumber segments :=
      of_decide_eq_true htaken
    show 2 * j + 1 = _
    omega
  have hnodup : ((segments.zipIdx.filter (TakenIn segments 0 ·)).map Prod.snd).Nodup := by
    apply List.Nodup.sublist (List.filter_sublist.map _)
    rw [List.zipIdx_map_snd]
    exact List.nodup_range'
  unfold takenIn
  rw [List.length_map]
  generalize segments.zipIdx.filter (TakenIn segments 0 ·) = places at hsame hnodup ⊢
  match places with
  | [] => exact Nat.zero_le 1
  | [p] => exact le_rfl
  | p :: q :: rest =>
    have hp := hsame p (List.mem_cons_self ..)
    have hq := hsame q (List.mem_cons_of_mem _ (List.mem_cons_self ..))
    rw [List.map_cons, List.map_cons, List.nodup_cons] at hnodup
    exact absurd (List.mem_cons.mpr (Or.inl (by omega))) hnodup.1

/-- From a new level over its target one segment is selected.
SOURCE: level.rs:353-367 -/
theorem selects_one (h : segments.map Sst.Segment.number = List.range' 1 segments.length)
    (hselect : Sst.selectForMerge segments targetSize = .ok selected) (hne : selected ≠ []) :
    ∃ s ∈ segments, selected = [s] := by
  obtain ⟨rounds, hrounds, -, htaken⟩ :=
    selectForMerge_rounds (selectForMerge_size hselect) hselect
  have hhighest : Sst.highestNumber segments ≤ segments.length := by
    apply highestNumber_le
    intro s hs
    obtain ⟨j, hj⟩ := List.mem_iff_getElem?.mp hs
    have hnumber := number_of_place h hj
    have hlt := (List.getElem?_eq_some_iff.mp hj).1
    omega
  have hlength : selected.length ≤ 1 := by
    match rounds with
    | 0 =>
      rw [htaken]
      exact Nat.zero_le 1
    | 1 =>
      have hfirst : takenBefore segments 1 = takenIn segments 0 := by
        rw [takenBefore_succ]
        rfl
      rw [htaken, hfirst]
      exact takenIn_length_le_one h
    | rounds + 2 =>
      have hpos : 0 < segments.length := by
        apply List.length_pos_iff.mpr
        rintro rfl
        exact hne (List.eq_nil_iff_forall_not_mem.mpr fun s hs =>
          absurd (selectForMerge_subset hselect s hs) List.not_mem_nil)
      have hmore := Nat.mul_le_mul_right segments.length (show 2 ≤ rounds + 2 by omega)
      omega
  obtain ⟨s, rest, rfl⟩ := List.exists_cons_of_ne_nil hne
  rw [List.length_cons] at hlength
  obtain rfl : rest = [] := List.eq_nil_of_length_eq_zero (by omega)
  exact ⟨s, selectForMerge_subset hselect s (List.mem_singleton_self s), rfl⟩

end

/-! ## A merge into a new level -/

/-- INTERNAL: new files are numbered by their places. -/
theorem numbers_of_cut {segments out : List Sst.Segment} (h : NewFiles segments out) :
    out.map Sst.Segment.number = List.range' 1 out.length := by
  obtain ⟨front, last, rfl, hfront, -, hnumber⟩ := h.cut
  exact map_number_snoc hfront.numbers hnumber

/-- INTERNAL: each of them is a copy of its entries. -/
theorem copied_of_cut {segments out : List Sst.Segment} (h : NewFiles segments out)
    {s : Sst.Segment} (hs : s ∈ out) : CopiedAs s (entriesOf s) := by
  obtain ⟨front, last, rfl, hfront, hlast, -⟩ := h.cut
  obtain hs | hs := List.mem_append.mp hs
  · exact hfront.copied s hs
  · rwa [List.mem_singleton.mp hs]

section
variable {orders : Sst.PartitionedLevel → List Sst.Segment → ℕ → Sst.IterationOrder}
  {limit n targetSize : ℕ} {chosen deleted : List Sst.Segment} {newLevel : Sst.PartitionedLevel}
  {d d' : Dir}

/-- A merge into a new level gives it the segments that it has written.
SOURCE: level.rs:441-477 -/
theorem mergeLevels_newFiles (h : Mergeable chosen) (hturn : MergesInTurn chosen)
    (hne : chosen ≠ []) (hno : NoFilesFrom n d)
    (hrun : (Sst.mergeLevels orders limit (.new targetSize n) chosen).run d =
      .ok (newLevel, deleted) d') :
    NewFiles chosen newLevel.segments ∧ newLevel.targetSize = targetSize := by
  obtain ⟨out, mid, hwrite, hreturn⟩ := run_bind_eq_ok hrun
  have hfiles : NewFiles chosen out :=
    mergeAndWrite_newFiles h hturn hne (fun k path hpath => hno n le_rfl k path hpath) hwrite
  cases hreturn
  refine ⟨?_, rfl⟩
  have hwhole : ∀ s ∈ out, Whole s := fun s hs => (copied_of_cut hfiles hs).stored
  have hsorted : out.Pairwise fun s t => s.firstKey ≤ t.firstKey := by
    refine (ranges_of_ascending hwhole hfiles.ascending).imp_of_mem fun hs _ hlt => ?_
    exact (firstKey_le_lastKey (hwhole _ hs)).trans hlt.le
  show NewFiles chosen ((out ++ []).mergeSort _)
  rw [List.append_nil, List.mergeSort_of_pairwise (hsorted.imp decide_eq_true)]
  exact hfiles

/-- INTERNAL: a merge writes files of its level only. -/
theorem mergeLevels_noFiles (hno : NoFilesFrom n d)
    (hrun : (Sst.mergeLevels orders limit (.new targetSize n) chosen).run d =
      .ok (newLevel, deleted) d') : NoFilesFrom (n + 1) d' := by
  obtain ⟨written, hmerged⟩ := mergeLevels_eq_ok hrun
  intro m hm k path hpath hmem
  obtain hold | ⟨k', -, hname⟩ := hmerged.wrote.added path hmem
  · exact hno m (Nat.le_of_succ_le hm) k path hpath hold
  · have hlevel : m = n := (numbers_inj hpath hname).1
    omega

/-- INTERNAL: a segment that the next merge copies as it is. -/
structure Copyable (s : Sst.Segment) (es : List SsTableEntry) : Prop where
  entries : entriesOf s = es
  mergeable : Mergeable [s]
  uncut : Uncut es

/-- INTERNAL: one whole segment can be merged on its own. -/
theorem mergeable_single {s : Sst.Segment} (hwhole : Whole s)
    (hkeys : ∀ e ∈ entriesOf s, e.key ≠ "")
    (hfits : ∀ e ∈ entriesOf s, e.len + 4 ≤ Sst.MERGE_BUF_MAX_TOTAL_SIZE + 1)
    (hshort : s.dataBlockEnd + 1 < 2 ^ 64) : Mergeable [s] := by
  refine ⟨fun t ht => ?_, ?_, ?_, fun t ht => ?_⟩
  · rwa [List.mem_singleton.mp ht]
  · rwa [allEntries_singleton]
  · rw [allEntries_singleton, List.length_singleton, Nat.div_one]
    exact hfits
  · rwa [List.mem_singleton.mp ht]

/-- INTERNAL: the segments of a new level can be copied. -/
theorem copyable_of_newFiles (h : Mergeable chosen) {out : List Sst.Segment}
    (hfiles : NewFiles chosen out) {s : Sst.Segment} (hs : s ∈ out) : Copyable s (entriesOf s) := by
  have hcopied := copied_of_cut hfiles hs
  have hmem : ∀ e ∈ entriesOf s, e ∈ allEntries chosen := fun e he =>
    hfiles.members e (mem_allEntries.mpr ⟨s, hs, he⟩)
  refine ⟨rfl, mergeable_single hcopied.stored (fun e he => h.keys e (hmem e he)) (fun e he => ?_)
    hcopied.short, hcopied.uncut⟩
  have hle := Nat.div_le_self Sst.MERGE_BUF_MAX_TOTAL_SIZE chosen.length
  have hfits := h.fits e (hmem e he)
  omega

/-- A segment that is merged alone into a new level is not cut again.
SOURCE: level.rs:479-555 -/
theorem copied_alone {s : Sst.Segment} {es : List SsTableEntry} (h : Copyable s es)
    {out : List Sst.Segment} (hfiles : NewFiles [s] out) :
    ∃ s', out = [s'] ∧ CopiedAs s' es ∧ s'.number = 1 := by
  obtain ⟨front, last, rfl, hfront, hlast, hnumber⟩ := hfiles.cut
  have hasc : Ascending es :=
    h.entries ▸ (h.mergeable.whole s (List.mem_singleton_self s)).ascending
  have hnodup : ((allEntries [s]).map SsTableEntry.key).Nodup := by
    rw [allEntries_singleton, h.entries]
    exact List.pairwise_map.mpr (hasc.imp fun hlt => hlt.ne)
  have hall : allEntries (front ++ [last]) = es := by
    have hperm := hfiles.perm hnodup
    rw [allEntries_singleton, h.entries] at hperm
    refine hperm.eq_of_pairwise (fun x y _ _ hxy hyx => ?_) hfiles.ascending hasc
    exact absurd (hxy.trans hyx) (lt_irrefl _)
  cases front with
  | nil =>
    rw [List.nil_append, allEntries_singleton] at hall
    exact ⟨last, rfl, hall ▸ hlast, hnumber⟩
  | cons first front =>
    -- the first segment has reached the target before the last one begins
    have hfull := hfront.full first (List.mem_cons_self ..)
    obtain ⟨e, he, -⟩ := exists_first hlast.stored
    have hrest : e ∈ allEntries (front ++ [last]) :=
      mem_allEntries.mpr ⟨last, List.mem_append_right _ (List.mem_singleton_self _), he⟩
    obtain ⟨x, rest, hsplit⟩ := List.exists_cons_of_ne_nil (List.ne_nil_of_mem hrest)
    have hcut : es = entriesOf first ++ x :: rest := by
      rw [← hall, ← hsplit]
      rfl
    exact absurd (h.uncut _ _ _ hcut) (Nat.not_lt.mpr hfull)

end

/-! ## The rounds -/

section
variable {merge : Sst.Merge} {bt bt' : Sst.CompactionBt} {c c' : Compacting}
  {res : List Sst.PartitionedLevel}

/-- INTERNAL: the rest of a compaction. -/
def CascadeFrom (merge : Sst.Merge) (c : Compacting) (res : List Sst.PartitionedLevel)
    (bt' : Sst.CompactionBt) : Prop :=
  Cascade merge c.levels c.chosen c.target c.number c.bt res bt'

/-- INTERNAL: a compaction ends if the merges that follow from its selection do. -/
theorem ends_iff : Ends merge bt ↔ ∃ chosen, bt.container.levelZero.segmentsToMerge = .ok chosen ∧
    ∃ res bt', CascadeFrom merge (startingWith bt chosen) res bt' := by
  constructor
  · rintro ⟨fuel, res, bt', hrun⟩
    obtain ⟨chosen, hchosen, hcascade⟩ := compactFromLevelZero_cascade hrun
    exact ⟨chosen, hchosen, res, bt', hcascade⟩
  · rintro ⟨chosen, hchosen, res, bt', hcascade⟩
    obtain ⟨fuel, hrun⟩ := compactFromLevelZero_returns hchosen hcascade
    exact ⟨fuel, res, bt', hrun⟩

/-- INTERNAL: one more merge in front. -/
theorem cascade_of_goesOn (h : GoesOn merge c c') (hrest : CascadeFrom merge c' res bt') :
    ∃ res, CascadeFrom merge c res bt' := by
  obtain ⟨round, counted, exceeds, selected⟩ := h
  exact ⟨_, .next round counted exceeds selected hrest⟩

/-- INTERNAL: a compaction that ends does so after each of its rounds. -/
theorem cascade_after_goesOn (h : GoesOn merge c c') (hcascade : CascadeFrom merge c res bt') :
    ∃ rest, CascadeFrom merge c' rest bt' := by
  obtain ⟨round, counted, exceeds, selected⟩ := h
  cases hcascade with
  | last round₂ _ within =>
    cases round.symm.trans round₂
    cases exceeds.symm.trans within
  | next round₂ _ _ selected₂ rest =>
    cases round.symm.trans round₂
    cases selected.symm.trans selected₂
    exact ⟨_, rest⟩

/-- INTERNAL: the merges from a later point on. -/
theorem cascade_of_reached (h : ReflTransGen (GoesOn merge) c c')
    (hcascade : CascadeFrom merge c res bt') : ∃ rest, CascadeFrom merge c' rest bt' := by
  induction h with
  | refl => exact ⟨res, hcascade⟩
  | tail _ hlast ih =>
    obtain ⟨rest, hrest⟩ := ih
    exact cascade_after_goesOn hlast hrest

/-- INTERNAL: every round takes one of the levels, as long as there are any. -/
theorem levels_length (h : ReflTransGen (GoesOn merge) c c') :
    c'.levels.length = c.levels.length - (c'.number - c.number) ∧ c.number ≤ c'.number := by
  induction h with
  | refl => exact ⟨by omega, le_rfl⟩
  | tail _ hlast ih =>
    obtain ⟨round, counted, exceeds, selected⟩ := hlast
    rw [List.length_tail]
    dsimp only
    omega

/-- INTERNAL: the levels are gone through by their numbers. -/
theorem goesOn_number (h : GoesOn merge c c') : c'.number = c.number + 1 := by
  obtain ⟨round, counted, exceeds, selected⟩ := h
  rfl

/-- INTERNAL: all new levels get the same target.
SOURCE: compaction.rs:63-74 -/
theorem newTarget_of_goesOn (hlevels : c.levels = []) (h : GoesOn merge c c') :
    c'.newTarget = c.newTarget := by
  obtain ⟨round, counted, exceeds, selected⟩ := h
  obtain ⟨deleted, dir, -, rfl, htarget⟩ := compactRound_eq_ok round
  rw [hlevels] at htarget
  unfold Compacting.newTarget
  rw [htarget]
  rfl

/-- INTERNAL: no level is left at the top. -/
theorem reachesTop_levels (h : ReachesTop merge bt c) : c.levels = [] := by
  obtain ⟨chosen, -, hreached, hnumber⟩ := h
  obtain ⟨hlength, -⟩ := levels_length hreached
  apply List.eq_nil_of_length_eq_zero
  rw [hlength, hnumber]
  show bt.container.partitionedLevels.length - (_ + 1 - 1) = 0
  omega

/-- INTERNAL: a level that segments can be selected from knows whether it is over its target. -/
theorem exceeds_of_selects {level : Sst.PartitionedLevel} {selected : List Sst.Segment}
    (h : level.segmentsToMerge = .ok selected) :
    level.exceedsTargetSize = .ok (decide (fileSizes level.segments > level.targetSize)) := by
  unfold Sst.PartitionedLevel.exceedsTargetSize Sst.exceeds
  rw [totalSize_ok (selectForMerge_size h)]
  rfl

/-- INTERNAL: a round whose calls return ends the compaction or goes on. -/
theorem round_of_returns (h : RoundReturns merge c) (hfits : c.levels = [] → c.newTarget < 2 ^ 64)
    (hcounted : c.number + 1 < 2 ^ 64) :
    (∃ res bt', CascadeFrom merge c res bt') ∨ ∃ c', GoesOn merge c c' := by
  obtain ⟨newLevel, deleted, dir, chosen', hmerge, hselect⟩ := h
  have hround := compactRound_run hfits hmerge
  have hexceeds := exceeds_of_selects hselect
  cases hover : decide (fileSizes newLevel.segments > newLevel.targetSize) with
  | false => exact Or.inl ⟨_, _, .last hround hcounted (hexceeds.trans (congrArg Except.ok hover))⟩
  | true =>
    exact Or.inr ⟨_, .round hround hcounted (hexceeds.trans (congrArg Except.ok hover)) hselect⟩

/-- INTERNAL: a compaction with a good top ends: every round takes a level away, and the second new
level is the last. The induction is on the levels.
SOURCE: compaction.rs:52-81 -/
theorem cascade_of_topFits (hfits : TopFits merge bt) {bound : ℕ}
    (hbound : bt.container.partitionedLevels.length + 3 ≤ bound)
    (hlength : bt.container.partitionedLevels.length + 3 < 2 ^ 64) {chosen : List Sst.Segment}
    (hchosen : bt.container.levelZero.segmentsToMerge = .ok chosen)
    (hreturns : ∀ c, ReflTransGen (GoesOn merge) (startingWith bt chosen) c → c.number < bound →
      RoundReturns merge c) (left : ℕ)
    (hreached : ReflTransGen (GoesOn merge) (startingWith bt chosen) c)
    (hleft : c.number + left = bt.container.partitionedLevels.length + 1) :
    ∃ res bt', CascadeFrom merge c res bt' := by
  induction left generalizing c with
  | zero =>
    have htop : ReachesTop merge bt c := ⟨chosen, hchosen, hreached, hleft⟩
    obtain ⟨htarget, hsecond⟩ := hfits c htop
    obtain hends | ⟨c', hgoes⟩ := round_of_returns (hreturns c hreached (by omega))
      (fun _ => htarget) (by omega)
    · exact hends
    · have hnumber := goesOn_number hgoes
      obtain ⟨newLevel, deleted, dir, chosen', hmerge, hselect⟩ :=
        hreturns c' (hreached.tail hgoes) (by omega)
      have htarget' : c'.levels = [] → c'.newTarget < 2 ^ 64 := by
        intro _
        rw [newTarget_of_goesOn (reachesTop_levels htop) hgoes]
        exact htarget
      have hround := compactRound_run htarget' hmerge
      have hwithin := hsecond c' hgoes _ _ _ hround
      obtain ⟨res, hres⟩ := cascade_of_goesOn hgoes (.last hround (by omega) hwithin)
      exact ⟨res, _, hres⟩
  | succ left ih =>
    obtain ⟨hlevels, hstart⟩ := levels_length hreached
    have hstart : 1 ≤ c.number := hstart
    have hlevels : c.levels.length = bt.container.partitionedLevels.length - (c.number - 1) :=
      hlevels
    have hsome : c.levels ≠ [] := by
      intro hnil
      rw [hnil, List.length_nil] at hlevels
      omega
    obtain hends | ⟨c', hgoes⟩ := round_of_returns (hreturns c hreached (by omega))
      (fun hnil => absurd hnil hsome) (by omega)
    · exact hends
    · have hnumber := goesOn_number hgoes
      have hreached' := hreached.tail hgoes
      obtain ⟨res, bt', hrest⟩ := ih hreached' (by omega)
      obtain ⟨res', hres⟩ := cascade_of_goesOn hgoes hrest
      exact ⟨res', bt', hres⟩

end

/-! ## The same entries in every new level -/

/-- INTERNAL: a compaction into new levels has one segment to merge, which gets copied. -/
structure CopiesOn (c : Compacting) (es : List SsTableEntry) : Prop where
  levels : c.levels = []
  chosen : ∃ s, c.chosen = [s] ∧ Copyable s es
  free : NoFilesFrom c.number c.bt.dir

section
variable {orders : Sst.PartitionedLevel → List Sst.Segment → ℕ → Sst.IterationOrder}
  {limit : ℕ} {bt bt' mid : Sst.CompactionBt} {c c' : Compacting} {es : List SsTableEntry}
  {newLevel : Sst.PartitionedLevel} {target' : ℕ} {res : List Sst.PartitionedLevel}

/-- INTERNAL: a new level gets what is merged into it. -/
theorem newLevel_of_round (hlevels : c.levels = []) (hmergeable : Mergeable c.chosen)
    (hturn : MergesInTurn c.chosen) (hne : c.chosen ≠ []) (hfree : NoFilesFrom c.number c.bt.dir)
    (h : (Sst.CompactionBt.compactRound (Sst.mergeLevels orders limit) c.levels c.chosen c.target
      c.number).run c.bt = .ok (newLevel, target') mid) :
    NewFiles c.chosen newLevel.segments ∧ newLevel.targetSize = c.newTarget ∧
      NoFilesFrom (c.number + 1) mid.dir := by
  obtain ⟨deleted, dir, hrun, rfl, -⟩ := compactRound_eq_ok h
  rw [hlevels, List.headD_nil] at hrun
  obtain ⟨hfiles, htarget⟩ := mergeLevels_newFiles hmergeable hturn hne hfree hrun
  exact ⟨hfiles, htarget, mergeLevels_noFiles hfree hrun⟩

/-- INTERNAL: a round copies the segment. -/
theorem round_copies (h : CopiesOn c es)
    (hround : (Sst.CompactionBt.compactRound (Sst.mergeLevels orders limit) c.levels c.chosen
      c.target c.number).run c.bt = .ok (newLevel, target') mid) :
    ∃ s, newLevel.segments = [s] ∧ s.size = fileLength es ∧ s.number = 1 ∧ Copyable s es ∧
      newLevel.targetSize = c.newTarget ∧ NoFilesFrom (c.number + 1) mid.dir := by
  obtain ⟨s, hchosen, hcopyable⟩ := h.chosen
  obtain ⟨hfiles, htarget, hfree⟩ := newLevel_of_round h.levels (hchosen ▸ hcopyable.mergeable)
    (hchosen ▸ mergesInTurn_single hcopyable.mergeable) (hchosen ▸ List.cons_ne_nil _ _) h.free
    hround
  rw [hchosen] at hfiles
  obtain ⟨s', hout, hcopied, hnumber⟩ := copied_alone hcopyable hfiles
  have hcopy := copyable_of_newFiles hcopyable.mergeable hfiles
    (hout ▸ List.mem_singleton_self s')
  rw [entriesOf_eq hcopied.stored] at hcopy
  exact ⟨s', hout, hcopied.size, hnumber, hcopy, htarget, hfree⟩

/-- INTERNAL: whether a compaction goes on depends on the length of the file that is copied. -/
theorem copies_exceed (h : CopiesOn c es)
    (hround : (Sst.CompactionBt.compactRound (Sst.mergeLevels orders limit) c.levels c.chosen
      c.target c.number).run c.bt = .ok (newLevel, target') mid) {exceeded : Bool}
    (hexceeds : newLevel.exceedsTargetSize = .ok exceeded) :
    exceeded = decide (c.newTarget < fileLength es) := by
  obtain ⟨s, hsegments, hsize, -, -, htarget, -⟩ := round_copies h hround
  obtain ⟨size, htotal, hover⟩ := exec_bind_eq_ok.mp hexceeds
  have hlt := foldlM_size_lt (Nat.two_pow_pos 64) htotal
  rw [Nat.zero_add] at hlt
  have hsum := Except.ok.inj (htotal.symm.trans (totalSize_ok hlt))
  have hone : fileSizes newLevel.segments = fileLength es := by
    rw [hsegments, fileSizes_cons, hsize]
    rfl
  rw [hsum, hone, htarget] at hover
  exact (Except.ok.inj hover).symm

/-- INTERNAL: the next new level gets the same copies, which were over the last target. -/
theorem copies_next (h : CopiesOn c es) (hgoes : GoesOn (Sst.mergeLevels orders limit) c c') :
    CopiesOn c' es ∧ c.newTarget < fileLength es := by
  obtain ⟨round, counted, exceeds, selected⟩ := hgoes
  obtain ⟨s, hsegments, -, hnumber, hcopyable, -, hfree⟩ := round_copies h round
  obtain ⟨t, ht, hone⟩ := selects_one (numbers_single hsegments hnumber) selected
    (selected_ne_nil exceeds selected)
  rw [hsegments, List.mem_singleton] at ht
  refine ⟨⟨?_, ⟨s, hone.trans (by rw [ht]), hcopyable⟩, hfree⟩, ?_⟩
  · rw [h.levels]
    rfl
  · exact of_decide_eq_true (copies_exceed h round exceeds).symm

/-- A segment that is over the target of the new levels is copied without end.
SOURCE: compaction.rs:52-81 -/
theorem copies_never_end {levels : List Sst.PartitionedLevel} {chosen : List Sst.Segment}
    {target number : ℕ}
    (hcascade : Cascade (Sst.mergeLevels orders limit) levels chosen target number bt res bt')
    (h : CopiesOn ⟨levels, chosen, target, number, bt⟩ es) :
    ¬target * bt.levelSizeFactor < fileLength es := by
  intro hlarge
  induction hcascade with
  | last round _ within =>
    exact of_decide_eq_false (copies_exceed h round within).symm hlarge
  | next round counted exceeds selected rest ih =>
    have hgoes := GoesOn.round (c := ⟨_, _, _, _, _⟩) round counted exceeds selected
    exact ih (copies_next h hgoes).1 (lt_of_eq_of_lt (newTarget_of_goesOn h.levels hgoes) hlarge)

/-- INTERNAL: a new level that nothing is merged into is within its target. -/
theorem mergeLevels_nil {n targetSize : ℕ} {deleted : List Sst.Segment} {d d' : Dir}
    (hrun : (Sst.mergeLevels orders limit (.new targetSize n) []).run d =
      .ok (newLevel, deleted) d') : newLevel.exceedsTargetSize ≠ .ok true := by
  obtain ⟨out, mid, hwrite, hreturn⟩ := run_bind_eq_ok hrun
  cases hwrite
  cases hreturn
  intro hexceeds
  have hnone : Sst.exceeds (([] : List Sst.Segment).mergeSort fun s t => s.firstKey ≤ t.firstKey)
      targetSize = .ok true := hexceeds
  rw [List.mergeSort_nil] at hnone
  exact absurd (of_decide_eq_true (Except.ok.inj hnone)) (Nat.not_lt_zero _)

/-- INTERNAL: a compaction that ends could compute the target of a new level. -/
theorem newTarget_lt (hlevels : c.levels = [])
    (h : CascadeFrom (Sst.mergeLevels orders limit) c res bt') : c.newTarget < 2 ^ 64 := by
  obtain ⟨fuel, hrun⟩ := cascade_returns h []
  exact (compactLoop_starts hrun).2 hlevels

/-- INTERNAL: the first new level hands on one segment. -/
theorem copies_of_top (hmergeable : Mergeable c.chosen) (hturn : MergesInTurn c.chosen)
    (hfree : NoFilesFrom c.number c.bt.dir) (hlevels : c.levels = [])
    (hgoes : GoesOn (Sst.mergeLevels orders limit) c c') :
    ∃ es, CopiesOn c' es := by
  obtain ⟨round, counted, exceeds, selected⟩ := hgoes
  by_cases hne : c.chosen = []
  · obtain ⟨deleted, dir, hrun, -⟩ := compactRound_eq_ok round
    rw [hlevels, List.headD_nil, hne] at hrun
    exact absurd exceeds (mergeLevels_nil hrun)
  · obtain ⟨hfiles, -, hfree'⟩ := newLevel_of_round hlevels hmergeable hturn hne hfree round
    obtain ⟨s, hs, hone⟩ := selects_one (numbers_of_cut hfiles) selected
      (selected_ne_nil exceeds selected)
    refine ⟨_, ?_, ⟨s, hone, copyable_of_newFiles hmergeable hfiles hs⟩, hfree'⟩
    rw [hlevels]
    rfl

/-- INTERNAL: a compaction that ends has a good top.
SOURCE: compaction.rs:52-81 -/
theorem topFits_of_ends (horderly : OrderlyTop (Sst.mergeLevels orders limit) bt)
    (hends : Ends (Sst.mergeLevels orders limit) bt) :
    TopFits (Sst.mergeLevels orders limit) bt := by
  obtain ⟨chosen, hchosen, res, bt', hcascade⟩ := ends_iff.mp hends
  intro c htop
  have hlevels := reachesTop_levels htop
  obtain ⟨hmergeable, hturn, hfree⟩ := horderly c htop
  obtain ⟨chosen₁, hchosen₁, hreached, -⟩ := htop
  cases hchosen.symm.trans hchosen₁
  obtain ⟨rest, hrest⟩ := cascade_of_reached hreached hcascade
  refine ⟨newTarget_lt hlevels hrest, fun c' hgoes second target' bt'' hround => ?_⟩
  obtain ⟨es, hcopies⟩ := copies_of_top hmergeable hturn hfree hlevels hgoes
  obtain ⟨rest', hrest'⟩ := cascade_after_goesOn hgoes hrest
  have hfits : ¬c'.newTarget < fileLength es := copies_never_end hrest' hcopies
  obtain ⟨exceeded, hover⟩ : ∃ exceeded, second.exceedsTargetSize = .ok exceeded := by
    cases hrest' with
    | last round _ within =>
      cases hround.symm.trans round
      exact ⟨_, within⟩
    | next round _ exceeds _ _ =>
      cases hround.symm.trans round
      exact ⟨_, exceeds⟩
  rw [hover, copies_exceed hcopies hround hover, decide_eq_false hfits]

/-- A compaction whose calls return ends if the first or the second new level is within the target
that both get, and only then if no file is in the way.
SOURCE: compaction.rs:36-84 -/
theorem compaction_ends_iff (hlength : bt.container.partitionedLevels.length + 3 < 2 ^ 64)
    (hreturns : CallsReturn (Sst.mergeLevels orders limit)
      (bt.container.partitionedLevels.length + 3) bt) :
    (TopFits (Sst.mergeLevels orders limit) bt → Ends (Sst.mergeLevels orders limit) bt) ∧
      (OrderlyTop (Sst.mergeLevels orders limit) bt →
        (Ends (Sst.mergeLevels orders limit) bt ↔ TopFits (Sst.mergeLevels orders limit) bt)) := by
  have henough : TopFits (Sst.mergeLevels orders limit) bt →
      Ends (Sst.mergeLevels orders limit) bt := by
    intro hfits
    obtain ⟨chosen, hchosen, hcalls⟩ := hreturns
    have hleft : (startingWith bt chosen).number + bt.container.partitionedLevels.length =
        bt.container.partitionedLevels.length + 1 := Nat.add_comm 1 _
    exact ends_iff.mpr ⟨chosen, hchosen, cascade_of_topFits hfits le_rfl hlength hchosen hcalls _
      .refl hleft⟩
  exact ⟨henough, fun horderly => ⟨topFits_of_ends horderly, henough⟩⟩

/-! ## Copies that can be made -/

/-- INTERNAL: copies of the entries can be written to new levels whose numbers fit into the name of
a file. -/
structure RoomForCopies (limit : ℕ) (es : List SsTableEntry) : Prop where
  short : 2 * framedBytes es + 12 < 2 ^ 63
  length : es.length < 2 ^ 32
  limit : es.length < limit

/-- INTERNAL: a segment is merged alone.
SOURCE: level.rs:441-555 -/
theorem copy_returns (h : CopiesOn c es) (hroom : RoomForCopies limit es)
    (hcalm : c.bt.dir.faults = []) (hnumber : c.number < 2 ^ 32) :
    ∃ newLevel deleted dir, (Sst.mergeLevels orders limit (.new c.newTarget c.number)
      c.chosen).run c.bt.dir = .ok (newLevel, deleted) dir ∧ dir.faults = [] := by
  obtain ⟨s, hchosen, hcopyable⟩ := h.chosen
  have hwhole := hcopyable.mergeable.whole s (List.mem_singleton_self s)
  have hentries : allEntries [s] = es := by rw [allEntries_singleton, hcopyable.entries]
  have hall : AppendOnly [s] := by
    refine ⟨List.cons_ne_nil _ _, hcopyable.mergeable.whole, hcopyable.mergeable.keys, ?_,
      hcopyable.mergeable.fits⟩
    rw [allEntries_singleton]
    exact List.pairwise_map.mpr (hwhole.ascending.imp fun hlt => hlt.ne)
  have hroomy : RoomFor (.new c.newTarget c.number) [s] c.bt.dir := by
    refine ⟨hcalm, ?_, fun n path _ hpath => h.free c.number le_rfl n path hpath, ?_⟩
    · rw [hentries]
      show 0 + es.length < 2 ^ 32
      rw [Nat.zero_add]
      exact hroom.length
    · rw [hentries]
      exact hroom.short
  obtain ⟨out, dir, hrun, hfaults⟩ := mergeAndWriteTo_ok hall hroomy hnumber le_rfl
    (mergesInTurn_single hcopyable.mergeable) (show 12 < Sst.SEGMENT_SIZE by decide)
    (hentries ▸ hroom.limit) (orders (.new c.newTarget c.number) [s])
  obtain ⟨res, hres⟩ : ∃ res, (Sst.mergeLevels orders limit (.new c.newTarget c.number) [s]).run
      c.bt.dir = .ok res dir := ⟨_, run_bind_ok hrun⟩
  rw [hchosen]
  exact ⟨res.1, res.2, dir, hres, hfaults⟩

/-- INTERNAL: from a level with the one segment it can be selected.
SOURCE: level.rs:353-367 -/
theorem select_single {s : Sst.Segment} (hnumber : s.number = 1) (hsize : s.size < 2 ^ 64)
    (targetSize : ℕ) : ∃ selected, Sst.selectForMerge [s] targetSize = .ok selected := by
  apply selectForMerge_returns
  · rw [fileSizes_cons]
    exact hsize
  · have hhighest : Sst.highestNumber [s] = 1 := by
      unfold Sst.highestNumber
      simp [hnumber]
    refine ⟨1, by rw [hhighest]; rfl, ?_⟩
    have hnone : leftBefore [s] 1 = [] := by
      unfold leftBefore
      rw [List.map_eq_nil_iff, List.filter_eq_nil_iff]
      intro place hplace hleft
      rw [List.mem_singleton.mp hplace] at hleft
      have hmeet : ¬TakenIn [s] 0 (s, 0) := of_decide_eq_true hleft 0 Nat.one_pos
      apply hmeet
      show s.number + (0 * 1 + 0) = Sst.highestNumber [s]
      rw [hhighest, hnumber]
    rw [hnone]
    exact Nat.zero_le _

/-- INTERNAL: the length of such a file is a machine number. -/
theorem fileLength_lt (hroom : RoomForCopies limit es) : fileLength es < 2 ^ 64 := by
  have hle := segmentBytes_short (List.Sublist.refl (indexPlaces 0 es))
  have hshort := hroom.short
  have hle : fileLength es ≤ 2 * framedBytes es + 12 := hle
  omega

/-- INTERNAL: a round that copies returns.
SOURCE: compaction.rs:52-81 -/
theorem copies_return (h : CopiesOn c es) (hroom : RoomForCopies limit es)
    (hcalm : c.bt.dir.faults = []) (hnumber : c.number < 2 ^ 32) (htarget : c.newTarget < 2 ^ 64) :
    RoundReturns (Sst.mergeLevels orders limit) c := by
  obtain ⟨newLevel, deleted, dir, hrun, -⟩ := @copy_returns orders _ _ _ h hroom hcalm hnumber
  have hmerge : (Sst.mergeLevels orders limit (c.levels.headD (.new c.newTarget c.number))
      c.chosen).run c.bt.dir = .ok (newLevel, deleted) dir := by
    rw [h.levels]
    exact hrun
  obtain ⟨s, hsegments, hsize, hone, -⟩ :=
    round_copies h (compactRound_run (fun _ => htarget) hmerge)
  obtain ⟨selected, hselected⟩ := select_single hone (hsize ▸ fileLength_lt hroom)
    newLevel.targetSize
  refine ⟨newLevel, deleted, dir, selected, hmerge, ?_⟩
  unfold Sst.PartitionedLevel.segmentsToMerge
  rw [hsegments]
  exact hselected

/-- INTERNAL: a compaction that copies goes on to copy, and nothing disturbs it. The induction is on
the rounds.
SOURCE: compaction.rs:52-81 -/
theorem copies_reached (h : CopiesOn c es) (hroom : RoomForCopies limit es)
    (hcalm : c.bt.dir.faults = [])
    (hreached : ReflTransGen (GoesOn (Sst.mergeLevels orders limit)) c c') :
    CopiesOn c' es ∧ c'.newTarget = c.newTarget ∧
      (c'.number < 2 ^ 32 → c'.bt.dir.faults = []) := by
  induction hreached with
  | refl => exact ⟨h, rfl, fun _ => hcalm⟩
  | tail _ hgoes ih =>
    obtain ⟨hcopies, hsame, hstill⟩ := ih
    refine ⟨(copies_next hcopies hgoes).1, (newTarget_of_goesOn hcopies.levels hgoes).trans hsame,
      fun hnumber => ?_⟩
    obtain ⟨round, counted, exceeds, selected⟩ := hgoes
    have hbefore := Nat.lt_of_succ_lt hnumber
    obtain ⟨newLevel, deleted, dir, hrun, hfaults⟩ :=
      @copy_returns orders _ _ _ hcopies hroom (hstill hbefore) hbefore
    obtain ⟨deleted', dir', hrun', rfl, -⟩ := compactRound_eq_ok round
    rw [hcopies.levels, List.headD_nil] at hrun'
    cases hrun.symm.trans hrun'
    exact hfaults

end

/-! ### One small segment in level zero -/

/-- A flushed segment in level zero, and no other level. -/
def oneFlushed (targetSize : ℕ) : Sst.CompactionBt :=
  ⟨⟨⟨[oneKey 0 1 "a" 1], targetSize⟩, []⟩, [], 2, .empty⟩

/-- INTERNAL: the entry of the segment. -/
def flushedEntries : List SsTableEntry := [⟨"a", some "v", 1⟩]

/-- INTERNAL: the flushed segment holds its entry. -/
theorem flushed_stored : Stored (oneKey 0 1 "a" 1) flushedEntries :=
  oneKey_stored (by decide) (by norm_num)

/-- INTERNAL: the length of its file. -/
theorem fileLength_flushed : fileLength flushedEntries = 52 := by decide

/-- INTERNAL: there is room for copies of it. -/
theorem room_for_flushed : RoomForCopies 2 flushedEntries := by
  refine ⟨?_, ?_, ?_⟩ <;> decide

/-- INTERNAL: it is what is copied at first. -/
theorem flushed_copies (targetSize : ℕ) :
    CopiesOn (startingWith (oneFlushed targetSize) [oneKey 0 1 "a" 1]) flushedEntries := by
  have hentries := entriesOf_eq flushed_stored
  refine ⟨rfl, ⟨_, rfl, hentries, mergeable_single (whole_of_stored flushed_stored) ?_ ?_ ?_,
    uncut_single _⟩, fun m _ k path _ => List.not_mem_nil⟩
  · rw [hentries]
    decide
  · rw [hentries]
    decide
  · decide

section
variable {targetSize : ℕ}
  {orders : Sst.PartitionedLevel → List Sst.Segment → ℕ → Sst.IterationOrder}
  (hchosen : Sst.selectForMerge [oneKey 0 1 "a" 1] targetSize = .ok [oneKey 0 1 "a" 1])
include hchosen

/-- INTERNAL: each call on it returns. -/
theorem flushed_calls_return (htarget : targetSize * 2 < 2 ^ 64) :
    CallsReturn (Sst.mergeLevels orders 2) (2 ^ 32) (oneFlushed targetSize) := by
  refine ⟨_, hchosen, fun c hreached hnumber => ?_⟩
  obtain ⟨hcopies, hsame, hcalm⟩ :=
    copies_reached (flushed_copies targetSize) room_for_flushed rfl hreached
  exact copies_return hcopies room_for_flushed (hcalm hnumber) hnumber (hsame ▸ htarget)

end

/-- The file of 52 bytes is within the target 60 of the first new level. -/
theorem compaction_ends_within_target :
    Ends (Sst.mergeLevels frontOrders 2) (oneFlushed 30) := by
  have hchosen : Sst.selectForMerge [oneKey 0 1 "a" 1] 30 = .ok [oneKey 0 1 "a" 1] := by decide
  have hcopies : ∀ c, ReachesTop (Sst.mergeLevels frontOrders 2) (oneFlushed 30) c →
      CopiesOn c flushedEntries ∧ c.newTarget = 60 := by
    rintro c ⟨chosen, hselect, hreached, -⟩
    cases hchosen.symm.trans hselect
    obtain ⟨hcopies, hsame, -⟩ := copies_reached (flushed_copies 30) room_for_flushed rfl hreached
    exact ⟨hcopies, hsame⟩
  have horderly : OrderlyTop (Sst.mergeLevels frontOrders 2) (oneFlushed 30) := by
    intro c htop
    obtain ⟨s, hone, hcopyable⟩ := (hcopies c htop).1.chosen
    exact ⟨hone ▸ hcopyable.mergeable, hone ▸ mergesInTurn_single hcopyable.mergeable,
      (hcopies c htop).1.free⟩
  obtain ⟨chosen, hselect, hcalls⟩ := @flushed_calls_return 30 frontOrders hchosen (by norm_num)
  refine ((compaction_ends_iff (by decide) ⟨chosen, hselect, fun c hreached hnumber =>
    hcalls c hreached (hnumber.trans (by decide))⟩).2 horderly).mpr fun c htop => ?_
  obtain ⟨hcopies, htarget⟩ := hcopies c htop
  refine ⟨by rw [htarget]; norm_num, fun c' hgoes => ?_⟩
  have hover := (copies_next hcopies hgoes).2
  rw [htarget, fileLength_flushed] at hover
  exact absurd hover (by decide)

/-- It is over the target 40, which all new levels get, so it is copied from level to level.
SOURCE: compaction.rs:63-81 -/
theorem new_levels_without_end :
    CallsReturn (Sst.mergeLevels frontOrders 2) (2 ^ 32) (oneFlushed 20) ∧
      ¬Ends (Sst.mergeLevels frontOrders 2) (oneFlushed 20) := by
  have hchosen : Sst.selectForMerge [oneKey 0 1 "a" 1] 20 = .ok [oneKey 0 1 "a" 1] := by decide
  refine ⟨flushed_calls_return hchosen (by norm_num), fun hends => ?_⟩
  obtain ⟨chosen, hchosen₁, res, bt', hcascade⟩ := ends_iff.mp hends
  cases hchosen.symm.trans hchosen₁
  apply copies_never_end hcascade (flushed_copies 20)
  rw [fileLength_flushed]
  decide

end Rkvs.Analysis

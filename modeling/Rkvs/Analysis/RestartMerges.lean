import Rkvs.Analysis.ReplacedFiles
import Rkvs.Analysis.RecoverySteps

/-!
# The merges of a restart

A restart takes what it selects on one level to the next one that it has found, and then to levels
that it adds. A merge keeps the order of the levels exactly if it is in its place. A version that is
left behind on a low level, while one that is as new goes to a higher one, is never caught up with.
-/

set_option autoImplicit false

namespace Rkvs.Analysis

open Rkvs.Library Rkvs.Model Rkvs.Interface

/-! ## One merge -/

/-- INTERNAL: a level that nothing is merged into is as it was. -/
theorem replaced_nothing (level : Sst.PartitionedLevel) (d : Dir) :
    Replaced level [] d level [] d := by
  have htouched : touchedBy level [] = [] := by
    refine List.eq_nil_iff_forall_not_mem.mpr fun s hs => ?_
    obtain ⟨-, t, ht, -⟩ := mem_touchedBy.mp hs
    exact List.not_mem_nil ht
  have huntouched : untouchedBy level [] = level.segments := by
    refine List.filter_eq_self.mpr fun s _ => ?_
    rfl
  refine ⟨⟨fun s hs => absurd hs List.not_mem_nil, List.Pairwise.nil, fun key => ?_⟩,
    fun s hs => absurd hs List.not_mem_nil, ?_, rfl, fun s => ?_⟩
  · rw [htouched]
    exact fun e he => absurd he List.not_mem_nil
  · rw [huntouched]
    exact List.Perm.refl _
  · rw [htouched]
    exact ⟨fun hs => Or.inr ⟨hs, List.not_mem_nil⟩, fun hs => (hs.resolve_left List.not_mem_nil).1⟩

/-- INTERNAL: the files of a merge hold the newest versions of what it reads. -/
theorem Replaced.replaces {level newLevel : Sst.PartitionedLevel} {chosen out : List Sst.Segment}
    {d d' : Dir} (h : Replaced level chosen d newLevel out d') :
    Replaces Sst.Segment.levelNumber entriesOf SsTableEntry.key SsTableEntry.sequenceNumber
      {s | s ∈ segmentsIn d} {s | s ∈ segmentsIn d'} level.levelNumber
      {s | s ∈ touchedBy level chosen ++ chosen} {s | s ∈ out} := by
  have hnodup : ((allEntries out).map SsTableEntry.key).Nodup := by
    have hsorted : ((allEntries out).map SsTableEntry.key).Pairwise (· < ·) :=
      List.pairwise_map.mpr h.merged.ascending
    exact hsorted.imp fun hlt => hlt.ne
  refine ⟨h.files, h.placed, fun s hs x hx => ?_, fun t ht x hx => ?_,
    fun s hs x hx t ht y hy hkey => ?_⟩
  · exact mem_allEntries.mp (merged_key h.merged (mem_allEntries.mpr ⟨s, hs, hx⟩))
  · have hread := mem_allEntries.mpr ⟨t, ht, hx⟩
    have hnewest := h.merged.newest x.key
    cases hfor : entryFor (allEntries out) x.key with
    | none =>
      rw [hfor] at hnewest
      exact absurd rfl (hnewest x hread)
    | some y =>
      rw [hfor] at hnewest
      obtain ⟨hmem, hkey⟩ := mem_of_entryFor hfor
      obtain ⟨s, hs, hy⟩ := mem_allEntries.mp hmem
      exact ⟨s, hs, y, hy, hkey, hnewest.2.2 x hread rfl⟩
  · have hfirst := entryFor_of_mem hnodup (mem_allEntries.mpr ⟨s, hs, hx⟩)
    have hsecond := entryFor_of_mem hnodup (mem_allEntries.mpr ⟨t, ht, hy⟩)
    rw [hkey] at hfirst
    exact Option.some.inj (hfirst.symm.trans hsecond)

/-! ## One round -/

/-- INTERNAL: what a restart keeps: the levels in front of it are as the directory has them, and the
segments that it takes along come from lower ones. -/
structure Underway (st : Restarting) : Prop where
  whole : ∀ s ∈ segmentsIn st.dir, Whole s
  ascending : st.levels.Pairwise fun l m => l.levelNumber < m.levelNumber
  holds : ∀ l ∈ st.levels, ∀ s,
    s ∈ l.segments ↔ s ∈ segmentsIn st.dir ∧ s.levelNumber = l.levelNumber
  selected : ∀ s ∈ st.chosen, s ∈ segmentsIn st.dir
  lower : ∀ s ∈ st.chosen, ∀ l ∈ st.levels, s.levelNumber < l.levelNumber

/-- INTERNAL: the level of a round is the next one that was found, or a new one behind all of them. -/
def NextLevel (st : Restarting) (level : Sst.PartitionedLevel) (st' : Restarting) : Prop :=
  st.levels = level :: st'.levels ∨
    st.levels = [] ∧ st'.levels = [] ∧ level.segments = [] ∧
      level.levelNumber = st.recovered.length + 1

/-- INTERNAL: what a round does. -/
structure Advanced (st : Restarting) (level newLevel : Sst.PartitionedLevel)
    (out : List Sst.Segment) (st' : Restarting) : Prop where
  replaced : Replaced level st.chosen st.dir newLevel out st'.dir
  next : NextLevel st level st'
  recovered : st'.recovered = st.recovered ++ [newLevel]
  chosen : ∀ s ∈ st'.chosen, s ∈ newLevel.segments

/-- SOURCE: level.rs:189-217 -/
theorem advanced_of_step {levelZeroTargetSize levelSizeFactor : ℕ}
    {writes : Sst.PartitionedLevel → List Sst.Segment → EStateM Fault Dir (List Sst.Segment)}
    (hwrites : MergesIntoFiles writes) {st st' : Restarting} {level : Sst.PartitionedLevel}
    (hst : Underway st) (h : RestartStep levelZeroTargetSize levelSizeFactor
      (Sst.PartitionedLevel.merge writes) st level st') :
    ∃ newLevel out, Advanced st level newLevel out st' := by
  cases h with
  | nothing selects =>
    exact ⟨_, [], replaced_nothing _ _, Or.inl rfl, rfl, selectForMerge_subset selects⟩
  | found _ merged selects =>
    have hin : ∀ s ∈ level.segments, s ∈ segmentsIn _ := fun s hs =>
      ((hst.holds level (List.mem_cons_self ..) s).mp hs).1
    obtain ⟨out, hreplaced⟩ := mergeAndRemove_replaces hwrites hst.whole hin hst.selected merged
    exact ⟨_, out, hreplaced, Or.inl rfl, rfl, selectForMerge_subset selects⟩
  | added _ _ merged selects =>
    obtain ⟨out, hreplaced⟩ := mergeAndRemove_replaces hwrites hst.whole
      (fun s hs => absurd hs List.not_mem_nil) hst.selected merged
    exact ⟨_, out, hreplaced, Or.inr ⟨rfl, rfl, rfl, rfl⟩, rfl, selectForMerge_subset selects⟩

section
variable {st st' : Restarting} {level newLevel : Sst.PartitionedLevel} {out : List Sst.Segment}

/-- INTERNAL: the levels behind the one of a round are higher. -/
theorem NextLevel.higher (h : NextLevel st level st') (hst : Underway st) :
    ∀ l ∈ st'.levels, l ∈ st.levels ∧ level.levelNumber < l.levelNumber := by
  intro l hl
  obtain hfound | ⟨-, hnone, -, -⟩ := h
  · have hascending := hst.ascending
    rw [hfound] at hascending ⊢
    exact ⟨List.mem_cons_of_mem _ hl, (List.pairwise_cons.mp hascending).1 l hl⟩
  · rw [hnone] at hl
    exact absurd hl List.not_mem_nil

/-- INTERNAL: the segments of the level are in files. -/
theorem NextLevel.holds (h : NextLevel st level st') (hst : Underway st) {s : Sst.Segment}
    (hs : s ∈ level.segments) : s ∈ segmentsIn st.dir ∧ s.levelNumber = level.levelNumber := by
  obtain hfound | ⟨-, -, hempty, -⟩ := h
  · refine (hst.holds level ?_ s).mp hs
    rw [hfound]
    exact List.mem_cons_self ..
  · rw [hempty] at hs
    exact absurd hs List.not_mem_nil

namespace Advanced

variable (h : Advanced st level newLevel out st') (hst : Underway st)

include h hst

/-- INTERNAL: what is read is on the level, or taken along to it. -/
theorem reads {s : Sst.Segment} (hs : s ∈ touchedBy level st.chosen ++ st.chosen) :
    s ∈ st.chosen ∨ s.levelNumber = level.levelNumber := by
  obtain hs | hs := List.mem_append.mp hs
  · exact Or.inr (h.next.holds hst (mem_touchedBy.mp hs).1).2
  · exact Or.inl hs

/-- INTERNAL: the new level has files of its number. -/
theorem placed {s : Sst.Segment} (hs : s ∈ newLevel.segments) :
    s ∈ segmentsIn st'.dir ∧ s.levelNumber = level.levelNumber := by
  obtain hout | hstays := List.mem_append.mp (h.replaced.segments.mem_iff.mp hs)
  · exact ⟨(h.replaced.files s).mpr (Or.inl hout), h.replaced.placed s hout⟩
  · obtain ⟨hmem, hoff⟩ := mem_untouchedBy.mp hstays
    obtain ⟨hin, hnumber⟩ := h.next.holds hst hmem
    refine ⟨(h.replaced.files s).mpr (Or.inr ⟨hin, fun hread => ?_⟩), hnumber⟩
    obtain hread | hread := List.mem_append.mp hread
    · obtain ⟨-, t, ht, htouch⟩ := mem_touchedBy.mp hread
      exact hoff t ht htouch
    · obtain hfound | ⟨-, -, hempty, -⟩ := h.next
      · have hlt := hst.lower s hread level (by rw [hfound]; exact List.mem_cons_self ..)
        exact absurd hnumber hlt.ne
      · rw [hempty] at hmem
        exact absurd hmem List.not_mem_nil

/-- INTERNAL: the files of the levels behind it stay as they are. -/
theorem keeps_higher {l : Sst.PartitionedLevel} (hl : l ∈ st'.levels) {s : Sst.Segment}
    (hnumber : s.levelNumber = l.levelNumber) :
    s ∈ segmentsIn st'.dir ↔ s ∈ segmentsIn st.dir := by
  obtain ⟨hmem, hlt⟩ := h.next.higher hst l hl
  rw [h.replaced.files s]
  constructor
  · rintro (hout | ⟨hin, -⟩)
    · have hplaced := h.replaced.placed s hout
      omega
    · exact hin
  · refine fun hin => Or.inr ⟨hin, fun hread => ?_⟩
    obtain hchosen | hsame := h.reads hst hread
    · exact absurd hnumber (hst.lower s hchosen l hmem).ne
    · omega

/-- INTERNAL: after a round the restart is still under way. -/
theorem underway : Underway st' where
  whole := h.replaced.whole hst.whole
  ascending := by
    obtain hfound | ⟨-, hnone, -, -⟩ := h.next
    · have hascending := hst.ascending
      rw [hfound] at hascending
      exact (List.pairwise_cons.mp hascending).2
    · rw [hnone]
      exact List.Pairwise.nil
  holds l hl s := by
    rw [hst.holds l (h.next.higher hst l hl).1 s]
    apply and_congr_left
    exact fun hnumber => (h.keeps_higher hst hl hnumber).symm
  selected s hs := (h.placed hst (h.chosen s hs)).1
  lower s hs l hl := by
    rw [(h.placed hst (h.chosen s hs)).2]
    exact (h.next.higher hst l hl).2

omit hst in
/-- INTERNAL: it keeps the order exactly if its merge is in its place. -/
theorem ordered_iff (hordered : OrderedFiles st.dir) :
    OrderedFiles st'.dir ↔ InPlace st level :=
  h.replaced.replaces.ordered_iff hordered

end Advanced

end

/-! ## What is left behind -/

/-- INTERNAL: a segment stays where no merge comes to any more, and a version that is not older than
`x` is on a higher level or on its way there. -/
structure LeftBehind (u : Sst.Segment) (x : SsTableEntry) (st : Restarting) : Prop where
  stays : u ∈ segmentsIn st.dir
  unselected : u ∉ st.chosen
  passed : u.levelNumber ≤ st.recovered.length
  ahead : ∀ l ∈ st.levels, u.levelNumber < l.levelNumber
  above : ∃ s ∈ segmentsIn st.dir, (u.levelNumber < s.levelNumber ∨ s ∈ st.chosen) ∧
    ∃ y ∈ entriesOf s, y.key = x.key ∧ x.sequenceNumber ≤ y.sequenceNumber

/-- INTERNAL: a round does not bring the two together. -/
theorem LeftBehind.next {u : Sst.Segment} {x : SsTableEntry} {st st' : Restarting}
    {level newLevel : Sst.PartitionedLevel} {out : List Sst.Segment} (h : LeftBehind u x st)
    (hst : Underway st) (hadvanced : Advanced st level newLevel out st') :
    LeftBehind u x st' := by
  have hlower : u.levelNumber < level.levelNumber := by
    obtain hfound | ⟨-, -, -, hnumber⟩ := hadvanced.next
    · apply h.ahead
      rw [hfound]
      exact List.mem_cons_self ..
    · rw [hnumber]
      exact Nat.lt_succ_of_le h.passed
  refine ⟨(hadvanced.replaced.files u).mpr (Or.inr ⟨h.stays, fun hread => ?_⟩), fun hchosen => ?_,
    ?_, fun l hl => hlower.trans (hadvanced.next.higher hst l hl).2, ?_⟩
  · obtain hchosen | hsame := hadvanced.reads hst hread
    · exact h.unselected hchosen
    · exact absurd hsame hlower.ne
  · exact absurd (hadvanced.placed hst (hadvanced.chosen u hchosen)).2 hlower.ne
  · rw [hadvanced.recovered, List.length_append]
    exact h.passed.trans (Nat.le_add_right ..)
  · obtain ⟨s, hs, hwhere, y, hy, hkey, hle⟩ := h.above
    by_cases hread : s ∈ touchedBy level st.chosen ++ st.chosen
    · -- the merge writes a version that is as new
      obtain ⟨t, ht, z, hz, hzkey, hmax⟩ := hadvanced.replaced.replaces.newest s hread y hy
      refine ⟨t, (hadvanced.replaced.files t).mpr (Or.inl ht), Or.inl ?_, z, hz, hzkey.trans hkey,
        hle.trans hmax⟩
      rw [hadvanced.replaced.placed t ht]
      exact hlower
    · refine ⟨s, (hadvanced.replaced.files s).mpr (Or.inr ⟨hs, hread⟩), Or.inl ?_, y, hy, hkey,
        hle⟩
      exact hwhere.resolve_right fun hchosen => hread (List.mem_append_right _ hchosen)

/-- INTERNAL: when nothing is on its way any more, the order is lost. -/
theorem LeftBehind.not_ordered {u : Sst.Segment} {x : SsTableEntry} {st : Restarting}
    (h : LeftBehind u x st) (hnothing : st.chosen = []) (hx : x ∈ entriesOf u) :
    ¬OrderedFiles st.dir := by
  intro hordered
  obtain ⟨s, hs, hwhere, y, hy, hkey, hle⟩ := h.above
  rw [hnothing] at hwhere
  have hlower := hwhere.resolve_right List.not_mem_nil
  exact absurd (hordered u h.stays s hs hlower x hx y hy hkey.symm) (not_lt.mpr hle)

/-! ## Levels without gaps -/

/-- INTERNAL: the levels are numbered by the rounds that come to them. -/
structure Gapless (st : Restarting) : Prop where
  numbered : st.levels.map Sst.PartitionedLevel.levelNumber =
    List.range' (st.recovered.length + 1) st.levels.length
  behind : ∀ s ∈ st.chosen, s.levelNumber ≤ st.recovered.length

/-- INTERNAL: so a round has the number of its level. -/
theorem Gapless.number {st st' : Restarting} {level : Sst.PartitionedLevel} (h : Gapless st)
    (hnext : NextLevel st level st') : level.levelNumber = st.recovered.length + 1 := by
  obtain hfound | ⟨-, -, -, hnumber⟩ := hnext
  · have hnumbered := h.numbered
    rw [hfound, List.map_cons, List.length_cons, List.range'_succ] at hnumbered
    exact List.head_eq_of_cons_eq hnumbered
  · exact hnumber

/-- INTERNAL: the levels stay without a gap. -/
theorem Gapless.next {st st' : Restarting} {level newLevel : Sst.PartitionedLevel}
    {out : List Sst.Segment} (h : Gapless st) (hst : Underway st)
    (hadvanced : Advanced st level newLevel out st') : Gapless st' := by
  have hnumber := h.number hadvanced.next
  have hlength : st'.recovered.length = st.recovered.length + 1 := by
    rw [hadvanced.recovered, List.length_append, List.length_singleton]
  refine ⟨?_, fun s hs => ?_⟩
  · obtain hfound | ⟨-, hnone, -, -⟩ := hadvanced.next
    · have hnumbered := h.numbered
      rw [hfound, List.map_cons, List.length_cons, List.range'_succ] at hnumbered
      rw [hlength]
      exact List.tail_eq_of_cons_eq hnumbered
    · rw [hnone]
      rfl
  · rw [(hadvanced.placed hst (hadvanced.chosen s hs)).2, hnumber, hlength]

/-- INTERNAL: a merge that is out of place leaves a version behind. -/
theorem Gapless.leftBehind {st st' : Restarting} {level newLevel : Sst.PartitionedLevel}
    {out : List Sst.Segment} (h : Gapless st) (hst : Underway st)
    (hadvanced : Advanced st level newLevel out st') (hordered : OrderedFiles st.dir)
    (hplace : ¬InPlace st level) : ∃ u, ∃ x ∈ entriesOf u, LeftBehind u x st := by
  have hnumber := h.number hadvanced.next
  have hnotBelow : ¬∀ s ∈ segmentsIn st.dir, s ∉ touchedBy level st.chosen ++ st.chosen →
      s.levelNumber < level.levelNumber → ∀ t ∈ touchedBy level st.chosen ++ st.chosen,
        NewerThan SsTableEntry.key SsTableEntry.sequenceNumber (entriesOf s) (entriesOf t) := by
    refine fun hbelow => hplace ⟨hbelow, fun s hs hstays hlt x hx t ht y hy hkey => ?_⟩
    -- what is read comes from this level or from below
    have hread : t ∈ segmentsIn st.dir ∧ t.levelNumber ≤ level.levelNumber := by
      obtain ht | ht := List.mem_append.mp ht
      · obtain ⟨hin, hsame⟩ := hadvanced.next.holds hst (mem_touchedBy.mp ht).1
        exact ⟨hin, hsame.le⟩
      · have hle := h.behind t ht
        exact ⟨hst.selected t ht, by omega⟩
    exact ⟨t, ht, y, hy, hkey,
      hordered t hread.1 s hs (hread.2.trans_lt hlt) y hy x hx hkey⟩
  push Not at hnotBelow
  obtain ⟨u, hu, hstays, hlt, t, ht, hnewer⟩ := hnotBelow
  unfold NewerThan at hnewer
  push Not at hnewer
  obtain ⟨x, hx, y, hy, hkey, hle⟩ := hnewer
  refine ⟨u, x, hx, hu, fun hchosen => hstays (List.mem_append_right _ hchosen), by omega,
    fun l hl => ?_, t, ?_, ?_, y, hy, hkey.symm, hle⟩
  · have hmem := List.mem_map_of_mem (f := Sst.PartitionedLevel.levelNumber) hl
    rw [h.numbered] at hmem
    have hle := (List.mem_range'_1.mp hmem).1
    omega
  · obtain ht | ht := List.mem_append.mp ht
    · exact (hadvanced.next.holds hst (mem_touchedBy.mp ht).1).1
    · exact hst.selected t ht
  · obtain hchosen | hsame := hadvanced.reads hst ht
    · exact Or.inr hchosen
    · exact Or.inl (hlt.trans_eq hsame.symm)

end Rkvs.Analysis

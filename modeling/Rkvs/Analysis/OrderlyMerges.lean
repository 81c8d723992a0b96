import Rkvs.Analysis.CompactionEnds
import Rkvs.Analysis.CompactionThread
import Rkvs.Analysis.LevelCompaction
import Rkvs.Analysis.NewestMerge
import Rkvs.Analysis.RestartFiles
import Rkvs.Interface.OrderlyMerges

/-!
# Flushes and compactions with the merges of the code

An orderly merge leaves a level partitioned, with the newest version of every key. So a compaction
that is orderly and takes all segments of its level changes no answer, and after any number of
flushes and compactions every key has the newest version that was ever flushed.
-/

set_option autoImplicit false

namespace Rkvs.Analysis

open Rkvs.Library Rkvs.Model Rkvs.Interface Relation

/-! ## A merge into a level -/

section
variable {level level' : Sst.PartitionedLevel} {incoming out : List Sst.Segment}
  (hlevel : GoodLevel level) (hincoming : ∀ s ∈ incoming, Whole s)
  (hmerged : MergedFiles (touchedBy level incoming ++ incoming) out)
  (hperm : level'.segments.Perm (out ++ untouchedBy level incoming))
include hlevel hincoming hmerged hperm

/-- INTERNAL: the new files keep off the segments left alone if none of these is straddled. -/
theorem good_of_merged (happart : ¬Straddled level incoming) : GoodLevel level' := by
  refine ⟨(hperm.pairwise_iff overlaps_symm).mpr (List.pairwise_append.mpr ⟨?_, ?_, ?_⟩),
    fun s hs => ?_⟩
  · exact merged_partitioned hmerged
  · exact hlevel.partitioned.sublist List.filter_sublist
  · exact fun o ho u hu =>
      written_off hlevel.partitioned hlevel.whole hincoming hmerged happart ho hu
  · obtain hs | hs := List.mem_append.mp (hperm.subset hs)
    · exact hmerged.whole s hs
    · exact hlevel.whole s (mem_untouchedBy.mp hs).1

omit hlevel hincoming in
/-- INTERNAL: they hold the newest of what was read, and the others what they held. -/
theorem newest_of_merged (hgood : GoodLevel level') (key : String) :
    Newest (allEntries (level.segments ++ incoming)) key
      (entryFor (allEntries level'.segments) key) := by
  have hfound := newest_entryFor (nodup_keys hgood.partitioned hgood.whole) key
  have hnew : ∀ {s}, s ∈ out ∨ s ∈ untouchedBy level incoming → s ∈ level'.segments := fun hs =>
    hperm.symm.subset (List.mem_append.mpr hs)
  refine hfound.of_represented (fun e he => ?_) fun e he hkey => ?_
  · obtain ⟨s, hs, hes⟩ := mem_allEntries.mp he
    obtain hs | hs := List.mem_append.mp (hperm.subset hs)
    · obtain ⟨t, ht, het⟩ :=
        mem_allEntries.mp (merged_key hmerged (mem_allEntries.mpr ⟨s, hs, hes⟩))
      refine mem_allEntries.mpr ⟨t, ?_, het⟩
      obtain ht | ht := List.mem_append.mp ht
      · exact List.mem_append_left _ (mem_touchedBy.mp ht).1
      · exact List.mem_append_right _ ht
    · exact mem_allEntries.mpr ⟨s, List.mem_append_left _ (mem_untouchedBy.mp hs).1, hes⟩
  · obtain ⟨s, hs, hes⟩ := mem_allEntries.mp he
    by_cases hread : s ∈ touchedBy level incoming ++ incoming
    · have hnewest := hmerged.newest key
      cases hentry : entryFor (allEntries out) key with
      | none =>
        rw [hentry] at hnewest
        exact absurd hkey (hnewest e (mem_allEntries.mpr ⟨s, hread, hes⟩))
      | some f =>
        rw [hentry] at hnewest
        obtain ⟨t, ht, hft⟩ := mem_allEntries.mp (mem_of_entryFor hentry).1
        exact ⟨f, mem_allEntries.mpr ⟨t, hnew (Or.inl ht), hft⟩, hnewest.2.1,
          hnewest.2.2 e (mem_allEntries.mpr ⟨s, hread, hes⟩) hkey⟩
    · obtain hs | hs := List.mem_append.mp hs
      · have hoff : s ∈ untouchedBy level incoming := by
          refine mem_untouchedBy.mpr ⟨hs, fun t ht htouch => hread ?_⟩
          exact List.mem_append_left _ (mem_touchedBy.mpr ⟨hs, t, ht, htouch⟩)
        exact ⟨e, mem_allEntries.mpr ⟨s, hnew (Or.inr hoff), hes⟩, hkey, le_rfl⟩
      · exact absurd (List.mem_append_right _ hs) hread

end

/-- INTERNAL: an orderly merge that returns leaves a level as it should be.
SOURCE: level.rs:441-477 -/
theorem orderly_merge_newest {level level' : Sst.PartitionedLevel}
    {incoming deleted : List Sst.Segment} {d d' : Dir} {m : Lsm.Merging} (hlevel : GoodLevel level)
    (horderly : Orderly level incoming d)
    (hrun : (m.merge level incoming).run d = .ok (level', deleted) d') :
    GoodLevel level' ∧ ∀ key, Newest (allEntries (level.segments ++ incoming)) key
      (entryFor (allEntries level'.segments) key) := by
  unfold Lsm.Merging.merge Sst.mergeLevels at hrun
  obtain ⟨out, hwrite, hperm, -⟩ := merge_run_eq_ok hrun
  unfold Sst.mergeAndWrite at hwrite
  have hmerged := mergeAndWriteTo_newest horderly.mergeable horderly.inTurn horderly.fresh hwrite
  have hincoming : ∀ s ∈ incoming, Whole s := fun s hs =>
    horderly.mergeable.whole s (List.mem_append_right _ hs)
  have hgood := good_of_merged hlevel hincoming hmerged hperm horderly.apart
  exact ⟨hgood, newest_of_merged hmerged hperm hgood⟩

/-! ## The merges of a compaction -/

open Classical in
/-- INTERNAL: the merge of the code, where it is orderly. -/
noncomputable def orderlyMerge (m : Lsm.Merging) : Sst.Merge := fun level incoming d =>
  if Orderly level incoming d then (m.merge level incoming).run d else .error .panic d

section
variable {m : Lsm.Merging}

/-- INTERNAL: where a merge is orderly it is the one of the code. -/
theorem orderlyMerge_run {level : Sst.PartitionedLevel} {incoming : List Sst.Segment} {d : Dir}
    (h : Orderly level incoming d) :
    (orderlyMerge m level incoming).run d = (m.merge level incoming).run d := if_pos h

/-- INTERNAL: merges that are all orderly keep the newest entries. -/
theorem orderlyMerge_newest : MergesNewest (orderlyMerge m) := by
  intro level incoming d level' deleted d' hlevel _ hrun
  by_cases horderly : Orderly level incoming d
  · rw [orderlyMerge_run horderly] at hrun
    exact orderly_merge_newest hlevel horderly hrun
  · have hfails : (orderlyMerge m level incoming).run d = .error .panic d := if_neg horderly
    rw [hfails] at hrun
    cases hrun

/-- INTERNAL: a round that returns could compute the target of a new level.
SOURCE: compaction.rs:63-68, 115-120 -/
theorem compactRound_target {merge : Sst.Merge} {c : Compacting} {res : Sst.PartitionedLevel × ℕ}
    {bt' : Sst.CompactionBt}
    (h : (Sst.CompactionBt.compactRound merge c.levels c.chosen c.target c.number).run c.bt =
      .ok res bt') : c.levels = [] → c.newTarget < 2 ^ 64 := by
  intro hlevels
  rw [hlevels, Sst.CompactionBt.compactRound] at h
  obtain ⟨_, _, hget, hnew⟩ := run_bind_eq_ok h
  cases hget
  obtain ⟨_, _, htarget, -⟩ := run_bind_eq_ok hnew
  obtain ⟨hmul, -⟩ := run_liftExec_eq_ok htarget
  by_contra hlarge
  have hlarge : ¬c.target * c.bt.levelSizeFactor < 2 ^ 64 := hlarge
  rw [checkedMul, if_neg hlarge] at hmul
  cases hmul

/-- INTERNAL: an orderly round is the same with both merges. -/
theorem compactRound_orderly {c : Compacting} (h : Orderly c.next c.chosen c.bt.dir)
    {res : Sst.PartitionedLevel × ℕ} {bt' : Sst.CompactionBt}
    (hrun : (Sst.CompactionBt.compactRound m.merge c.levels c.chosen c.target c.number).run c.bt =
      .ok res bt') :
    (Sst.CompactionBt.compactRound (orderlyMerge m) c.levels c.chosen c.target c.number).run c.bt =
      .ok res bt' := by
  obtain ⟨newLevel, target'⟩ := res
  obtain ⟨deleted, dir, hmerge, rfl, rfl⟩ := compactRound_eq_ok hrun
  exact compactRound_run (compactRound_target hrun) ((orderlyMerge_run h).trans hmerge)

/-- INTERNAL: so is an orderly compaction, by induction on the rounds.
SOURCE: compaction.rs:52-83, 104-135 -/
theorem compactLoop_orderly {fuel : ℕ} {c : Compacting} (h : OrderlyFrom m.merge c)
    {newLevels res : List Sst.PartitionedLevel} {bt' : Sst.CompactionBt}
    (hrun : (Sst.CompactionBt.compactLoop m.merge fuel c.levels c.chosen c.target c.number
      newLevels).run c.bt = .ok res bt') :
    (Sst.CompactionBt.compactLoop (orderlyMerge m) fuel c.levels c.chosen c.target c.number
      newLevels).run c.bt = .ok res bt' := by
  induction fuel generalizing c newLevels with
  | zero => cases hrun
  | succ fuel ih =>
    rw [Sst.CompactionBt.compactLoop] at hrun ⊢
    obtain ⟨⟨newLevel, target'⟩, mid, hround, hcount⟩ := run_bind_eq_ok hrun
    obtain ⟨number', mid₁, hnumber, hcheck⟩ := run_bind_eq_ok hcount
    obtain ⟨hadd, rfl⟩ := run_liftExec_eq_ok hnumber
    obtain ⟨big, mid₂, hexceeds, hrest⟩ := run_bind_eq_ok hcheck
    obtain ⟨hbig, rfl⟩ := run_liftExec_eq_ok hexceeds
    rw [run_bind_ok (compactRound_orderly (h c .refl) hround)]
    dsimp only at hadd hbig ⊢
    rw [hadd, run_bind_ok (run_liftExec_ok ..), hbig, run_bind_ok (run_liftExec_ok ..)]
    cases big with
    | false => exact hrest
    | true =>
      obtain ⟨chosen', mid₃, hselect, hloop⟩ := run_bind_eq_ok hrest
      obtain ⟨hselected, rfl⟩ := run_liftExec_eq_ok hselect
      obtain ⟨rfl, hcounted⟩ := checkedAdd_eq_ok hadd
      have hgoes := GoesOn.round hround hcounted hbig hselected
      have hafter : OrderlyFrom m.merge _ := fun c' hc' => h c' (hc'.head hgoes)
      rw [if_pos rfl, hselected, run_bind_ok (run_liftExec_ok ..)]
      exact ih hafter hloop

end

/-! ## What a compaction leaves -/

/-- INTERNAL: the levels after a compaction hold nothing that was not there, by induction on the
rounds.
SOURCE: compaction.rs:52-83, 104-135 -/
theorem compactLoop_members {merge : Sst.Merge} (hmerge : MergesNewest merge) {fuel : ℕ}
    {levels newLevels res : List Sst.PartitionedLevel} {chosen : List Sst.Segment}
    {target number : ℕ} {bt bt' : Sst.CompactionBt} (hlevels : ∀ l ∈ levels, GoodLevel l)
    (hchosen : ∀ s ∈ chosen, Whole s)
    (h : (Sst.CompactionBt.compactLoop merge fuel levels chosen target number newLevels).run bt =
      .ok res bt') {P : SsTableEntry → Prop}
    (hold : ∀ l ∈ levels ++ newLevels, ∀ e ∈ allEntries l.segments, P e)
    (hnew : ∀ e ∈ allEntries chosen, P e) : ∀ l ∈ res, ∀ e ∈ allEntries l.segments, P e := by
  induction fuel generalizing levels newLevels chosen target number bt with
  | zero => cases h
  | succ fuel ih =>
    rw [Sst.CompactionBt.compactLoop] at h
    obtain ⟨⟨newLevel, target'⟩, _, hround, hcount⟩ := run_bind_eq_ok h
    obtain ⟨number', _, hnumber, hcheck⟩ := run_bind_eq_ok hcount
    obtain ⟨-, rfl⟩ := run_liftExec_eq_ok hnumber
    obtain ⟨big, _, hexceeds, hrest⟩ := run_bind_eq_ok hcheck
    obtain ⟨-, rfl⟩ := run_liftExec_eq_ok hexceeds
    obtain ⟨-, hgood, hnewest⟩ := compactRound_ok hmerge hlevels hchosen hround
    have htail : ∀ l ∈ levels.tail, GoodLevel l := fun l hl => hlevels l (List.mem_of_mem_tail hl)
    have hmerged : ∀ e ∈ allEntries newLevel.segments, P e := by
      intro e he
      have hfound := hnewest e.key
      rw [entryFor_of_mem (nodup_keys hgood.partitioned hgood.whole) he] at hfound
      obtain hfirst | hmem := List.mem_append.mp (allEntries_append _ chosen ▸ hfound.1)
      · cases levels with
        | nil => exact absurd hfirst List.not_mem_nil
        | cons level levels => exact hold level (List.mem_append_left _ (List.mem_cons_self ..)) e hfirst
      · exact hnew e hmem
    have hkept : ∀ l ∈ levels.tail ++ (newLevels ++ [newLevel]), ∀ e ∈ allEntries l.segments, P e := by
      intro l hl
      obtain hl | hl := List.mem_append.mp hl
      · exact hold l (List.mem_append_left _ (List.mem_of_mem_tail hl))
      · obtain hl | hl := List.mem_append.mp hl
        · exact hold l (List.mem_append_right _ hl)
        · rwa [List.mem_singleton.mp hl]
    cases big with
    | false =>
      cases hrest
      exact fun l hl => hkept l (List.mem_append.mpr (List.mem_append.mp hl).symm)
    | true =>
      obtain ⟨chosen', _, hchosen', hloop⟩ := run_bind_eq_ok hrest
      obtain ⟨hselect, rfl⟩ := run_liftExec_eq_ok hchosen'
      have hsubset := selectForMerge_subset hselect
      refine ih htail (fun s hs => hgood.whole s (hsubset s hs)) hloop hkept fun e he => ?_
      obtain ⟨s, hs, hes⟩ := mem_allEntries.mp he
      exact hmerged e (mem_allEntries.mpr ⟨s, hsubset s hs, hes⟩)

/-! ## A compaction that fails -/

/-- INTERNAL: whether it returns or fails, it leaves the container as it was. -/
def KeepsContainer {α : Type} (x : EStateM Fault Sst.CompactionBt α) : Prop :=
  ∀ bt, Runs x bt (fun _ bt' => bt'.container = bt.container)
    fun _ bt' => bt'.container = bt.container

namespace KeepsContainer

variable {α β : Type} {x : EStateM Fault Sst.CompactionBt α}

/-- INTERNAL: one step after the other. -/
theorem bind {f : α → EStateM Fault Sst.CompactionBt β} (hx : KeepsContainer x)
    (hf : ∀ a, KeepsContainer (f a)) : KeepsContainer (x >>= f) := fun bt =>
  (hx bt).bind fun a mid hmid => (hf a mid).mono (fun _ _ h => h.trans hmid) fun _ _ h => h.trans hmid

/-- INTERNAL: a step that does not touch the state. -/
theorem of_liftExec (y : Exec α) : KeepsContainer (liftExec y) := by
  intro bt
  cases y with
  | ok a => exact Runs.of_ok (run_liftExec_ok ..) rfl
  | error e => exact Runs.of_error (run_liftExec_error ..) rfl

/-- INTERNAL: returning does not touch the state. -/
theorem of_pure (a : α) : KeepsContainer (pure a) := fun _ => Runs.of_ok rfl rfl

/-- INTERNAL: nor does failing. -/
theorem of_throw (e : Fault) : KeepsContainer (throw e : EStateM Fault Sst.CompactionBt α) :=
  fun _ => Runs.of_error rfl rfl

/-- INTERNAL: nor does looking at it. -/
theorem of_get : KeepsContainer (get : EStateM Fault Sst.CompactionBt Sst.CompactionBt) :=
  fun _ => Runs.of_ok rfl rfl

/-- INTERNAL: a step on the directory leaves the levels alone. -/
theorem of_onDir (y : EStateM Fault Dir α) : KeepsContainer (Sst.CompactionBt.onDir y) := by
  intro bt
  cases hrun : y.run bt.dir with
  | ok a dir => exact Runs.of_ok (run_onPart_ok Sst.CompactionBt.dirPart hrun) rfl
  | error e dir => exact Runs.of_error (run_onPart_error Sst.CompactionBt.dirPart hrun) rfl

/-- INTERNAL: a failure that ends the thread leaves the levels alone. -/
theorem of_unwrapped (hx : KeepsContainer x) : KeepsContainer (Sst.CompactionBt.unwrapped x) := by
  intro bt
  have hbt := hx bt
  unfold Runs Sst.CompactionBt.unwrapped at *
  dsimp only [EStateM.run] at *
  cases hrun : x bt <;> rw [hrun] at hbt <;> exact hbt

end KeepsContainer

section
variable (merge : Sst.Merge)

/-- INTERNAL: a merge of the loop.
SOURCE: compaction.rs:57-60, 70-73 -/
theorem mergeInto_keeps (level : Sst.PartitionedLevel) (incoming : List Sst.Segment) :
    KeepsContainer (Sst.CompactionBt.mergeInto merge level incoming) :=
  (KeepsContainer.of_onDir _).bind fun _ => KeepsContainer.bind (fun _ => Runs.of_ok rfl rfl)
    fun _ => KeepsContainer.of_pure _

/-- INTERNAL: a round of the loop.
SOURCE: compaction.rs:53-75, 105-127 -/
theorem compactRound_keeps (levels : List Sst.PartitionedLevel) (chosen : List Sst.Segment)
    (target number : ℕ) :
    KeepsContainer (Sst.CompactionBt.compactRound merge levels chosen target number) := by
  cases levels with
  | nil =>
    exact KeepsContainer.of_get.bind fun _ => (KeepsContainer.of_liftExec _).bind fun _ =>
      (mergeInto_keeps merge _ _).bind fun _ => KeepsContainer.of_pure _
  | cons level levels =>
    exact (mergeInto_keeps merge _ _).bind fun _ => KeepsContainer.of_pure _

/-- INTERNAL: the loop touches the files only, by induction on its rounds.
SOURCE: compaction.rs:52-83, 104-135 -/
theorem compactLoop_keeps (fuel : ℕ) (levels : List Sst.PartitionedLevel)
    (chosen : List Sst.Segment) (target number : ℕ) (newLevels : List Sst.PartitionedLevel) :
    KeepsContainer
      (Sst.CompactionBt.compactLoop merge fuel levels chosen target number newLevels) := by
  induction fuel generalizing levels chosen target number newLevels with
  | zero => exact KeepsContainer.of_throw _
  | succ fuel ih =>
    refine (compactRound_keeps merge _ _ _ _).bind fun res => (KeepsContainer.of_liftExec _).bind
      fun number' => (KeepsContainer.of_liftExec _).bind fun big => ?_
    cases big with
    | false => exact KeepsContainer.of_pure _
    | true => exact (KeepsContainer.of_liftExec _).bind fun _ => ih _ _ _ _ _

/-- A compaction after a notification that fails leaves the container as it was.
SOURCE: compaction.rs:36-84, 212-224 -/
theorem notified_failed {fuel : ℕ} {referenced : Sst.Segment → Bool} {bt bt' : Sst.CompactionBt}
    {e : Fault} (h : (Sst.CompactionBt.notified merge fuel referenced).run bt = .error e bt') :
    bt'.container = bt.container := by
  have hcompact : KeepsContainer (Sst.CompactionBt.compactFromLevelZero merge fuel) :=
    KeepsContainer.of_get.bind fun _ => KeepsContainer.of_get.bind fun _ =>
      (KeepsContainer.of_liftExec _).bind fun _ => compactLoop_keeps merge _ _ _ _ _ _
  obtain hfail | ⟨newLevels, mid, -, hrest⟩ := run_bind_eq_error h
  · exact (hcompact bt).error hfail
  · -- the files are removed without failure
    obtain hfail | ⟨_, mid₁, -, hremove⟩ := run_bind_eq_error hrest
    · cases hfail
    · obtain ⟨bt₁, hremoved, -⟩ := removeSegmentFiles_ok referenced mid₁
      rw [hremoved] at hremove
      cases hremove

/-- So does one without a notification.
SOURCE: compaction.rs:90-168, 225-235 -/
theorem timedOut_failed {fuel : ℕ} {referenced : Sst.Segment → Bool} {bt bt' : Sst.CompactionBt}
    {e : Fault} (h : (Sst.CompactionBt.timedOut merge fuel referenced).run bt = .error e bt') :
    bt'.container = bt.container := by
  have hcompact : ∀ levels,
      KeepsContainer (Sst.CompactionBt.compactFromPartitionedLevel merge fuel levels) := by
    intro levels
    cases levels with
    | nil => exact KeepsContainer.of_pure _
    | cons first levels =>
      exact (KeepsContainer.of_liftExec _).bind fun _ => (KeepsContainer.of_liftExec _).bind
        fun _ => compactLoop_keeps merge _ _ _ _ _ _
  obtain ⟨bt₁, hremoved, hsame, -⟩ := removeSegmentFiles_ok referenced bt
  obtain hfail | ⟨_, mid, hremove, hrest⟩ := run_bind_eq_error h
  · rw [hremoved] at hfail
    cases hfail
  rw [hremoved] at hremove
  cases hremove
  obtain hfail | ⟨_, mid₁, hget, hfind⟩ := run_bind_eq_error hrest
  · cases hfail
  cases hget
  obtain hfail | ⟨split, mid₂, hlift, hloop⟩ := run_bind_eq_error hfind
  · obtain ⟨-, rfl⟩ := run_liftExec_eq_error hfail
    exact hsame
  obtain ⟨-, rfl⟩ := run_liftExec_eq_ok hlift
  obtain hfail | ⟨newLevels, mid₃, -, hswap⟩ := run_bind_eq_error hloop
  · exact ((hcompact _).of_unwrapped _).error hfail |>.trans hsame
  · cases hswap

end

/-! ## Every run -/

/-- INTERNAL: what holds in every state. -/
structure LsmSound (st : Lsm) : Prop where
  good : GoodContainer st.bt.container
  zero : ∀ e ∈ allEntries st.bt.container.levelZero.segments, e ∈ allEntries st.flushed
  levels : ∀ l ∈ st.bt.container.partitionedLevels, ∀ e ∈ allEntries l.segments,
    e ∈ allEntries st.flushed
  answers : st.AnswersNewest

/-- INTERNAL: it does not depend on the files. -/
theorem LsmSound.files {st : Lsm} (h : LsmSound st) {bt : Sst.CompactionBt}
    (hsame : bt.container = st.bt.container) : LsmSound { st with bt := bt } := by
  refine ⟨?_, ?_, ?_, fun key => ?_⟩
  · exact hsame ▸ h.good
  · exact hsame ▸ h.zero
  · exact hsame ▸ h.levels
  · exact hsame ▸ h.answers key

/-- INTERNAL: an element that is as new as the newest is one. -/
theorem newest_of_le {es : List SsTableEntry} {key : String} {e f : SsTableEntry}
    (h : Newest es key (some e)) (hf : f ∈ es) (hkey : f.key = key)
    (hle : e.sequenceNumber ≤ f.sequenceNumber) : Newest es key (some f) :=
  ⟨hf, hkey, fun y hy hyk => (h.2.2 y hy hyk).trans hle⟩

/-- INTERNAL: what a merge finds among entries that were flushed is as new as an entry of it that
was the newest of all. -/
theorem newest_merged {es flushed : List SsTableEntry} {key : String} {e : SsTableEntry}
    {r rest : Option SsTableEntry} (h : Newest flushed key (some e)) (he : e ∈ es)
    (hsub : ∀ f ∈ es, f ∈ flushed) (hr : Newest es key r) : Newest flushed key (r.or rest) := by
  cases r with
  | none => exact absurd h.2.1 (hr e he)
  | some f => exact newest_of_le h (hsub f hr.1) hr.2.1 (hr.2.2 e he h.2.1)

section
variable {st : Lsm}

/-- INTERNAL: the newest version of a key is found after a flush, too.
SOURCE: level.rs:248-267 -/
theorem flush_answers_newest (h : LsmSound st) {dir : Dir} {path : String} {s : Sst.Segment}
    {c : Sst.LevelContainer} (hwritten : Sst.Segment.fromFile dir path = .ok (.ok s))
    (hwhole : Whole s) (hadded : st.bt.container.addToLevelZero dir path = .ok c)
    (hnewer : NewerThan SsTableEntry.key SsTableEntry.sequenceNumber (entriesOf s)
      (allEntries st.flushed)) :
    LsmSound { bt := { st.bt with container := c, dir := dir }, flushed := st.flushed ++ [s] } := by
  obtain ⟨hzero, hlevels⟩ := addToLevelZero_eq hwritten hadded
  have hall : allEntries (st.flushed ++ [s]) = allEntries st.flushed ++ entriesOf s := by
    rw [allEntries_append, allEntries_singleton]
  have hzeroAll : allEntries c.levelZero.segments =
      allEntries st.bt.container.levelZero.segments ++ entriesOf s := by
    rw [hzero, allEntries_append, allEntries_singleton]
  have hgood : GoodContainer c := by
    refine ⟨fun t ht => ?_, hlevels ▸ h.good.levels⟩
    rw [hzero] at ht
    obtain ht | ht := List.mem_append.mp ht
    · exact h.good.levelZero t ht
    · rwa [List.mem_singleton.mp ht]
  have hsub : ∀ e ∈ allEntries c.levelZero.segments, e ∈ allEntries (st.flushed ++ [s]) := by
    intro e he
    rw [hall]
    rw [hzeroAll] at he
    obtain he | he := List.mem_append.mp he
    · exact List.mem_append_left _ (h.zero e he)
    · exact List.mem_append_right _ he
  refine ⟨hgood, hsub, fun l hl e he => ?_, fun key => ?_⟩
  · show e ∈ allEntries (st.flushed ++ [s])
    rw [hall]
    exact List.mem_append_left _ (h.levels l (hlevels ▸ hl) e he)
  obtain ⟨r₀, -, hold, hget⟩ := container_get h.good key
  obtain ⟨r, -, hnew, hget'⟩ := container_get hgood key
  obtain ⟨g, hg, hbefore⟩ := h.answers key
  cases hget.symm.trans hg
  refine ⟨_, hget', ?_⟩
  show Newest (allEntries (st.flushed ++ [s])) key _
  rw [hall, hlevels]
  rw [hzeroAll] at hnew
  by_cases hkey : ∃ e ∈ entriesOf s, e.key = key
  · -- the new segment has a version, which is newer than all others
    obtain ⟨e, he, hek⟩ := hkey
    have hes := List.mem_append_right (allEntries st.bt.container.levelZero.segments) he
    cases r with
    | none => exact absurd hek (hnew e hes)
    | some f =>
      obtain ⟨hf, hfk, hmax⟩ := hnew
      refine ⟨?_, hfk, fun y hy hyk => ?_⟩
      · rw [← hall]
        exact hsub f (hzeroAll ▸ hf)
      · obtain hy | hy := List.mem_append.mp hy
        · exact (hnewer e he y hy (hek.trans hyk.symm)).le.trans (hmax e hes hek)
        · exact hmax y (List.mem_append_right _ hy) hyk
  · -- without one all is found as before
    have habsent : ∀ e ∈ entriesOf s, e.key ≠ key := fun e he hek => hkey ⟨e, he, hek⟩
    have hsame : ∀ {es : List SsTableEntry}, ∀ e, e.key = key →
        (e ∈ es ↔ e ∈ es ++ entriesOf s) := by
      intro es e hek
      rw [List.mem_append]
      exact ⟨Or.inl, fun hmem => hmem.resolve_right fun hes => habsent e hes hek⟩
    refine IsNewest.congr hsame ?_
    have hnew : Newest (allEntries st.bt.container.levelZero.segments) key r :=
      IsNewest.congr (fun e hek => (hsame e hek).symm) hnew
    cases r₀ with
    | none =>
      cases r with
      | none => exact hbefore
      | some f => exact absurd hnew.2.1 (hold f hnew.1)
    | some e =>
      cases r with
      | none => exact absurd hold.2.1 (hnew e hold.1)
      | some f =>
        exact newest_of_le hbefore (h.zero f hnew.1) hnew.2.1 (hnew.2.2 e hold.1 hold.2.1)

end

/-- INTERNAL: what an orderly compaction of segments `chosen` into `levels` leaves. -/
structure KeepsNewest (flushed : List SsTableEntry) (levels res : List Sst.PartitionedLevel)
    (chosen : List Sst.Segment) : Prop where
  good : ∀ l ∈ res, GoodLevel l
  members : ∀ l ∈ res, ∀ e ∈ allEntries l.segments, e ∈ flushed
  newest : ∀ key, ∀ e ∈ allEntries chosen, Newest flushed key (some e) →
    Newest flushed key (lookupLevels key res)
  others : ∀ key, (∀ e ∈ allEntries chosen, e.key ≠ key) →
    lookupLevels key res = lookupLevels key levels

/-- INTERNAL: the newest of what was flushed stays the newest, and keys of which nothing is merged
keep their answers.
SOURCE: compaction.rs:52-83, 104-135 -/
theorem compacted_of_orderly {flushed : List SsTableEntry} {m : Lsm.Merging} {c : Compacting}
    (horderly : OrderlyFrom m.merge c) (hlevels : ∀ l ∈ c.levels, GoodLevel l)
    (hwhole : ∀ s ∈ c.chosen, Whole s)
    (hold : ∀ l ∈ c.levels, ∀ e ∈ allEntries l.segments, e ∈ flushed)
    (hchosen : ∀ e ∈ allEntries c.chosen, e ∈ flushed) {fuel : ℕ}
    {res : List Sst.PartitionedLevel} {bt' : Sst.CompactionBt}
    (hrun : (Sst.CompactionBt.compactLoop m.merge fuel c.levels c.chosen c.target c.number []).run
      c.bt = .ok res bt') :
    bt'.container = c.bt.container ∧ KeepsNewest flushed c.levels res c.chosen := by
  have hrun := compactLoop_orderly horderly hrun
  obtain ⟨hsame, tail, hres, hgood, hlookup⟩ :=
    compactLoop_ok orderlyMerge_newest hlevels hwhole hrun
  rw [List.nil_append] at hres
  subst hres
  have hmembers := compactLoop_members orderlyMerge_newest hlevels hwhole hrun
    (P := (· ∈ flushed)) (fun l hl => hold l (List.append_nil c.levels ▸ hl)) hchosen
  have hread : ∀ e ∈ allEntries (firstSegments c.levels ++ c.chosen), e ∈ flushed := by
    intro e he
    rw [allEntries_append] at he
    obtain he | he := List.mem_append.mp he
    · cases hsplit : c.levels with
      | nil =>
        rw [hsplit] at he
        exact absurd he List.not_mem_nil
      | cons level levels =>
        rw [hsplit] at he
        exact hold level (by rw [hsplit]; exact List.mem_cons_self ..) e he
    · exact hchosen e he
  refine ⟨hsame, hgood, hmembers, fun key e he hnewest => ?_, fun key habsent => ?_⟩
  · obtain ⟨r, hr, htail⟩ := hlookup key
    rw [htail]
    refine newest_merged hnewest ?_ hread hr
    rw [allEntries_append]
    exact List.mem_append_right _ he
  · obtain ⟨r, hr, htail⟩ := hlookup key
    rw [htail, newest_or_tail hlevels habsent hr]

section
variable {st : Lsm} (h : LsmSound st)
include h

/-- INTERNAL: entries of segments of level zero were flushed. -/
theorem flushed_of_zero {segments : List Sst.Segment}
    (hsub : ∀ s ∈ segments, s ∈ st.bt.container.levelZero.segments) :
    ∀ e ∈ allEntries segments, e ∈ allEntries st.flushed := by
  intro e he
  obtain ⟨s, hs, hes⟩ := mem_allEntries.mp he
  exact h.zero e (mem_allEntries.mpr ⟨s, hsub s hs, hes⟩)

/-- INTERNAL: a compaction of all of level zero.
SOURCE: compaction.rs:36-84, 212-224 -/
theorem notified_answers_newest {m : Lsm.Merging} (hclean : st.Clean (.notified m)) {fuel : ℕ}
    {referenced : Sst.Segment → Bool} {bt' : Sst.CompactionBt}
    (hrun : (Sst.CompactionBt.notified m.merge fuel referenced).run st.bt = .ok () bt') :
    LsmSound { st with bt := bt' } := by
  obtain ⟨chosen, newLevels, bt₁, hchosen, hloop, hcontainer⟩ := notified_eq_ok hrun
  obtain ⟨hcovered, horderly⟩ := hclean chosen hchosen
  have hsubset := selectForMerge_subset hchosen
  obtain ⟨-, hdone⟩ := compacted_of_orderly horderly h.good.levels
    (fun s hs => h.good.levelZero s (hsubset s hs)) h.levels (flushed_of_zero h hsubset) hloop
  have hswapped : bt'.container = ⟨⟨[], bt₁.container.levelZero.targetSize⟩, newLevels⟩ :=
    hcontainer
  refine ⟨?_, ?_, ?_, fun key => ⟨lookupLevels key newLevels, ?_, ?_⟩⟩
  · show GoodContainer bt'.container
    rw [hswapped]
    exact ⟨fun s hs => absurd hs List.not_mem_nil, hdone.good⟩
  · show ∀ e ∈ allEntries bt'.container.levelZero.segments, _
    rw [hswapped]
    exact fun e he => absurd he List.not_mem_nil
  · show ∀ l ∈ bt'.container.partitionedLevels, _
    rw [hswapped]
    exact hdone.members
  · show bt'.container.get key = _
    rw [hswapped]
    exact get_of_empty_zero _ hdone.good key
  · obtain ⟨r₀, -, hzero, hget⟩ := container_get h.good key
    obtain ⟨g, hg, hbefore⟩ := h.answers key
    cases hget.symm.trans hg
    cases r₀ with
    | none =>
      have habsent : ∀ e ∈ allEntries chosen, e.key ≠ key := by
        intro e he
        obtain ⟨s, hs, hes⟩ := mem_allEntries.mp he
        exact hzero e (mem_allEntries.mpr ⟨s, hsubset s hs, hes⟩)
      rw [hdone.others key habsent]
      exact hbefore
    | some e =>
      obtain ⟨s, hs, hes⟩ := mem_allEntries.mp hzero.1
      exact hdone.newest key e (mem_allEntries.mpr ⟨s, hcovered s hs, hes⟩) hbefore

/-- INTERNAL: a compaction of all of a partitioned level.
SOURCE: compaction.rs:90-168, 225-235 -/
theorem timedOut_answers_newest {m : Lsm.Merging} {referenced : Sst.Segment → Bool}
    (hclean : st.Clean (.timedOut m referenced)) {fuel : ℕ} {bt' : Sst.CompactionBt}
    (hrun : (Sst.CompactionBt.timedOut m.merge fuel referenced).run st.bt = .ok () bt') :
    LsmSound { st with bt := bt' } := by
  obtain ⟨_, bt₀, hremoved, hfind⟩ := run_bind_eq_ok hrun
  obtain ⟨_, hremoved', hsame, hfactor⟩ := removeSegmentFiles_ok referenced st.bt
  cases hremoved'.symm.trans hremoved
  obtain ⟨_, _, hget, hsplit⟩ := run_bind_eq_ok hfind
  cases hget
  obtain ⟨⟨front, toCompact⟩, _, hfound, hunwrapped⟩ := run_bind_eq_ok hsplit
  obtain ⟨hlift, rfl⟩ := run_liftExec_eq_ok hfound
  obtain ⟨newLevels, bt₁, hunwrap, hswap⟩ := run_bind_eq_ok hunwrapped
  have hcompact := Sst.CompactionBt.run_unwrapped_eq_ok.mp hunwrap
  rw [hsame] at hlift
  have hlevels := find_split hlift
  have hswapped : bt'.container = ⟨bt₁.container.levelZero, front ++ newLevels⟩ := by
    cases hswap
    rfl
  cases toCompact with
  | nil =>
    -- no level is over its target
    cases hcompact
    have hsame' : bt'.container = st.bt.container := by
      rw [hswapped, ← hlevels, hsame]
    exact ⟨hsame' ▸ h.good, hsame' ▸ h.zero, hsame' ▸ h.levels,
      fun key => hsame' ▸ h.answers key⟩
  | cons first behind =>
    have hgood : ∀ l ∈ front ++ first :: behind, GoodLevel l := hlevels ▸ h.good.levels
    have hmembers : ∀ l ∈ front ++ first :: behind, ∀ e ∈ allEntries l.segments,
        e ∈ allEntries st.flushed := hlevels ▸ h.levels
    have hfirst : GoodLevel first := hgood first (by simp)
    obtain ⟨chosen, _, hselect, hcount⟩ := run_bind_eq_ok hcompact
    obtain ⟨hchosen, rfl⟩ := run_liftExec_eq_ok hselect
    obtain ⟨number, _, hnumber, hloop⟩ := run_bind_eq_ok hcount
    obtain ⟨hadd, rfl⟩ := run_liftExec_eq_ok hnumber
    obtain ⟨rfl, -⟩ := checkedAdd_eq_ok hadd
    obtain ⟨hlt, htarget⟩ := compactLoop_starts hloop
    rw [hfactor] at htarget
    obtain ⟨hcovered, horderly⟩ := hclean front first behind chosen ⟨hlift, hchosen, hlt, htarget⟩
    have hsubset := selectForMerge_subset hchosen
    have hflushed : ∀ e ∈ allEntries chosen, e ∈ allEntries st.flushed := by
      intro e he
      obtain ⟨s, hs, hes⟩ := mem_allEntries.mp he
      exact hmembers first (by simp) e (mem_allEntries.mpr ⟨s, hsubset s hs, hes⟩)
    obtain ⟨hsame', hdone⟩ := compacted_of_orderly (horderly _ hremoved)
      (fun l hl => hgood l (by simp [hl])) (fun s hs => hfirst.whole s (hsubset s hs))
      (fun l hl => hmembers l (by simp [hl])) hflushed hloop
    rw [hsame', hsame] at hswapped
    have hafter : GoodContainer bt'.container := by
      rw [hswapped]
      exact ⟨h.good.levelZero, fun l hl => (List.mem_append.mp hl).elim
        (fun hl => hgood l (by simp [hl])) (hdone.good l)⟩
    refine ⟨hafter, ?_, ?_, fun key => ?_⟩
    · show ∀ e ∈ allEntries bt'.container.levelZero.segments, _
      rw [hswapped]
      exact h.zero
    · show ∀ l ∈ bt'.container.partitionedLevels, _
      rw [hswapped]
      exact fun l hl => (List.mem_append.mp hl).elim (fun hl => hmembers l (by simp [hl]))
        (hdone.members l)
    obtain ⟨r₀, hzero, hget⟩ := get_of_split h.good hlevels key
    obtain ⟨r₁, hzero₁, -, hget₁⟩ := container_get hafter key
    obtain ⟨g, hg, hbefore⟩ := h.answers key
    cases hget.symm.trans hg
    rw [hswapped, hzero] at hzero₁
    cases hzero₁
    refine ⟨_, hget₁, ?_⟩
    rw [hswapped]
    show Newest (allEntries st.flushed) key (r₀.or (lookupLevels key (front ++ newLevels)))
    rw [lookupLevels_append]
    cases r₀ with
    | some e => exact hbefore
    | none =>
      cases hfront : lookupLevels key front with
      | some e =>
        rw [hfront] at hbefore
        exact hbefore
      | none =>
        rw [hfront] at hbefore
        simp only [Option.none_or] at hbefore ⊢
        cases hentry : entryFor (allEntries first.segments) key with
        | some e =>
          rw [hentry] at hbefore
          obtain ⟨s, hs, hes⟩ := mem_allEntries.mp (mem_of_entryFor hentry).1
          exact hdone.newest key e (mem_allEntries.mpr ⟨s, hcovered s hs, hes⟩) hbefore
        | none =>
          rw [hentry] at hbefore
          have habsent : ∀ e ∈ allEntries chosen, e.key ≠ key := by
            intro e he
            obtain ⟨s, hs, hes⟩ := mem_allEntries.mp he
            simpa using List.find?_eq_none.mp hentry e (mem_allEntries.mpr ⟨s, hsubset s hs, hes⟩)
          rw [hdone.others key habsent]
          exact hbefore

end

/-- INTERNAL: a step that is clean keeps it. -/
theorem lsmSound_step {st st' : Lsm} {a : Lsm.Action} (h : LsmSound st) (hclean : st.Clean a)
    (hstep : Lsm.Step st a st') : LsmSound st' := by
  cases hstep with
  | flush written whole added => exact flush_answers_newest h written whole added hclean
  | notified returned => exact notified_answers_newest h hclean returned
  | timedOut returned => exact timedOut_answers_newest h hclean returned
  | notifiedFails failed => exact h.files (notified_failed _ failed)
  | timedOutFails failed => exact h.files (timedOut_failed _ failed)

/-- Without levels nothing is found, and nothing was flushed. -/
theorem lsmSound_start {bt : Sst.CompactionBt} (hzero : bt.container.levelZero.segments = [])
    (hlevels : bt.container.partitionedLevels = []) : LsmSound ⟨bt, []⟩ := by
  have hgood : GoodContainer bt.container := by
    refine ⟨fun s hs => ?_, fun l hl => ?_⟩
    · rw [hzero] at hs
      cases hs
    · rw [hlevels] at hl
      cases hl
  refine ⟨hgood, fun e he => ?_, fun l hl => ?_, fun key => ?_⟩
  · have he : e ∈ allEntries bt.container.levelZero.segments := he
    rw [hzero] at he
    exact absurd he List.not_mem_nil
  · have hl : l ∈ bt.container.partitionedLevels := hl
    rw [hlevels] at hl
    cases hl
  · obtain ⟨r, -, hr, hget⟩ := container_get hgood key
    rw [hzero] at hr
    rw [hlevels] at hget
    refine ⟨r, hget.trans ?_, hr⟩
    show Except.ok (r.or none) = .ok r
    rw [Option.or_none]

/-- After any number of flushes and compactions every key is answered with the newest version that
was ever flushed, if flushes come in the order of their versions and compactions take whole levels
and are orderly.
SOURCE: compaction.rs:36-168, 200-240; level.rs:441-555; sstable.rs:61-95 -/
theorem compactions_answer_newest {bt : Sst.CompactionBt}
    (hzero : bt.container.levelZero.segments = []) (hlevels : bt.container.partitionedLevels = [])
    {steps : List (Lsm × Lsm.Action)} {st : Lsm} (hrun : Run Lsm.Step ⟨bt, []⟩ steps st)
    (hclean : ∀ p ∈ steps, p.1.Clean p.2) :
    (∀ p ∈ steps, p.1.AnswersNewest) ∧ st.AnswersNewest := by
  have hsound := hrun.invariant_of_guard (lsmSound_start hzero hlevels)
    (fun s a s' h hguard hstep => lsmSound_step h hguard hstep) hclean
  exact ⟨fun p hp => (hsound.1 p hp).answers, hsound.2.answers⟩

/-! ### A flush after a compaction -/

/-- INTERNAL: level zero gets over its target of 20 bytes with one segment. -/
def emptyLevels : Sst.CompactionBt := ⟨⟨⟨[], 20⟩, []⟩, [], 3, .empty⟩

/-- INTERNAL: a second flush of the key. -/
def laterZero : Sst.Segment :=
  segmentHolding "0000000000000002.sst" 0 2 [⟨"a", some "v", 3⟩]

/-- INTERNAL: merges that go through the buffers from the front. -/
def frontMerging : Lsm.Merging := ⟨frontOrders, 9⟩

/-- INTERNAL: after the first flush. -/
def afterFlush : Lsm :=
  ⟨{ emptyLevels with container := ⟨⟨[smallZero], 20⟩, []⟩, dir := zeroFiles }, [smallZero]⟩

/-- INTERNAL: the first flush holds its entry. -/
theorem smallZero_stored : Stored smallZero [⟨"a", some "v", 2⟩] :=
  stored_of_checks (List.cons_ne_nil _ _) (by decide) (by decide)

/-- INTERNAL: the second flush holds its entry. -/
theorem laterZero_stored : Stored laterZero [⟨"a", some "v", 3⟩] :=
  stored_of_checks (List.cons_ne_nil _ _) (by decide) (by decide)

/-- INTERNAL: the first flush can be merged. -/
theorem smallZero_mergeable : Mergeable [smallZero] := by
  have hentries := entriesOf_eq smallZero_stored
  refine mergeable_single (whole_of_stored smallZero_stored) ?_ ?_ (by decide) <;>
    rw [hentries]
  · decide
  · decide

/-- INTERNAL: the segment of level zero in level one. -/
def smallFirst : Sst.Segment :=
  ⟨segmentBytes [⟨"a", some "v", 2⟩] [⟨"a", 0⟩], "0000000100000001.sst", ⟨[⟨"a", 0⟩], 13⟩, 2, 52, 23,
    1, 1, "a", "a"⟩

/-- INTERNAL: what the first compaction writes. -/
theorem first_merge_result :
    resultOf (Sst.mergeAndWrite (fun _ => frontFirst) 9 (.new 60 1) [smallZero])
      zeroFiles = some [smallFirst] := by decide

/-- INTERNAL: the first merge moves the flushed segment to level one. -/
theorem first_merge_run : ∃ d', (frontMerging.merge (.new 60 1) [smallZero]).run
    zeroFiles = .ok (⟨[smallFirst], 60, 1, 1⟩, [smallZero]) d' :=
  ⟨_, @mergeLevels_run frontOrders 9 (.new 60 1) [smallZero] [] [smallFirst] _ _ rfl
    (run_of_result first_merge_result) (List.pairwise_singleton ..)⟩

/-- INTERNAL: the flushed segment is selected. -/
theorem first_selected :
    Sst.OverlappingLevel.segmentsToMerge ⟨[smallZero], 20⟩ = .ok [smallZero] := by decide

/-- INTERNAL: the compaction of the first segment is orderly, and takes one round. -/
theorem first_orderly : OrderlyFrom frontMerging.merge (startingWith afterFlush.bt [smallZero]) := by
  intro c' hreached
  obtain rfl | ⟨c, hgoes, -⟩ := hreached.cases_head
  · refine ⟨smallZero_mergeable, mergesInTurn_single smallZero_mergeable,
      fun k _ path hname hmem => ?_, ?_⟩
    · -- the only file is one of level zero
      have hpath : path = "0000000000000001.sst" := List.mem_singleton.mp hmem
      have hnumbers := numbers_of_filename hname
      have hzero : Sst.Segment.levelAndSegmentNumberFromFilename "0000000000000001.sst" =
          .ok (0, 1) := by decide
      rw [hpath, hzero] at hnumbers
      cases hnumbers
    · rintro ⟨u, hu, -⟩
      exact absurd hu List.not_mem_nil
  · obtain ⟨round, counted, exceeds, selected⟩ := hgoes
    obtain ⟨d', hmerge⟩ := first_merge_run
    obtain ⟨deleted, dir, hmerge', rfl, -⟩ := compactRound_eq_ok round
    have hsame : EStateM.Result.ok _ _ = EStateM.Result.ok _ _ := hmerge.symm.trans hmerge'
    cases hsame
    have hwithin : Sst.PartitionedLevel.exceedsTargetSize ⟨[smallFirst], 60, 1, 1⟩ = .ok false := by
      decide
    rw [hwithin] at exceeds
    cases exceeds

/-- INTERNAL: the levels after the first compaction. -/
theorem first_compacted : ∃ bt', (Sst.CompactionBt.notified frontMerging.merge 1 fun _ => false).run
    afterFlush.bt = .ok () bt' ∧
      bt'.container = ⟨⟨[], 20⟩, [⟨[smallFirst], 60, 1, 1⟩]⟩ := by
  obtain ⟨d', hmerge⟩ := first_merge_run
  have hround := @compactRound_run frontMerging.merge [] [smallZero] 20 1 afterFlush.bt _ _ _
    (fun _ => by decide) hmerge
  have hwithin : Sst.PartitionedLevel.exceedsTargetSize ⟨[smallFirst], 60, 1, 1⟩ = .ok false := by
    decide
  have hloop : (Sst.CompactionBt.compactLoop frontMerging.merge 1 [] [smallZero] 20 1 []).run
      afterFlush.bt = .ok [⟨[smallFirst], 60, 1, 1⟩]
        { afterFlush.bt with dir := d', segmentsToDelete := [] ++ [smallZero] } := by
    rw [Sst.CompactionBt.compactLoop, run_bind_ok hround]
    dsimp only
    rw [checkedAdd_ok (by norm_num), run_bind_ok (run_liftExec_ok ..), hwithin,
      run_bind_ok (run_liftExec_ok ..)]
    rfl
  obtain ⟨bt', hrun, hcontainer⟩ := @notified_ok _ _ afterFlush.bt _ _ _ (fun _ => false)
    first_selected hloop
  refine ⟨bt', hrun, ?_⟩
  rw [hcontainer]
  rfl

/-- After a flush, a compaction and a flush the answer is the version that was flushed last. -/
theorem compactions_answer_newest_small : ∃ steps st,
    Run Lsm.Step ⟨emptyLevels, []⟩ steps st ∧ (∀ p ∈ steps, p.1.Clean p.2) ∧ st.AnswersNewest ∧
      st.flushed = [smallZero, laterZero] ∧ st.bt.container.partitionedLevels.length = 1 := by
  obtain ⟨bt', hcompact, hcontainer⟩ := first_compacted
  have hfirst : Lsm.Step ⟨emptyLevels, []⟩ (.flush smallZero) afterFlush :=
    @Lsm.Step.flush ⟨emptyLevels, []⟩ zeroFiles smallZero.filepath
      smallZero ⟨⟨[smallZero], 20⟩, []⟩ (by decide) (whole_of_stored smallZero_stored)
      (by decide)
  have hadded : bt'.container.addToLevelZero (dirHolding [laterZero] (by decide))
      laterZero.filepath = .ok ⟨⟨[laterZero], 20⟩, [⟨[smallFirst], 60, 1, 1⟩]⟩ := by
    rw [hcontainer]
    decide
  have hnext := @Lsm.Step.flush ⟨bt', [smallZero]⟩ _ _ laterZero _ (by decide)
    (whole_of_stored laterZero_stored) hadded
  have hrun := ((Run.nil.snoc hfirst).snoc (Lsm.Step.notified hcompact)).snoc hnext
  have hclean : ∀ p ∈ ([] ++ [((⟨emptyLevels, []⟩ : Lsm), Lsm.Action.flush smallZero)] ++
      [(afterFlush, .notified frontMerging)]) ++ [(⟨bt', [smallZero]⟩, .flush laterZero)],
      p.1.Clean p.2 := by
    intro p hp
    obtain hp | hp := List.mem_append.mp hp
    · obtain hp | hp := List.mem_append.mp hp
      · rw [List.mem_singleton.mp hp]
        exact fun e _ f hf => absurd hf List.not_mem_nil
      · rw [List.mem_singleton.mp hp]
        intro chosen hchosen
        cases first_selected.symm.trans hchosen
        exact ⟨fun s hs => hs, first_orderly⟩
    · rw [List.mem_singleton.mp hp]
      intro e he f hf _
      rw [entriesOf_eq laterZero_stored] at he
      have hf : f ∈ allEntries [smallZero] := hf
      rw [allEntries_singleton, entriesOf_eq smallZero_stored] at hf
      rw [List.mem_singleton.mp he, List.mem_singleton.mp hf]
      decide
  exact ⟨_, _, hrun, hclean, (compactions_answer_newest rfl rfl hrun hclean).2, rfl, rfl⟩

end Rkvs.Analysis

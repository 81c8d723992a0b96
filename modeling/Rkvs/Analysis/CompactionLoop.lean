import Rkvs.Analysis.LevelMerge
import Rkvs.Interface.Compaction

/-!
# The loop of a compaction

Every round merges what was selected into the next level and keeps the level it was selected from.
So only the first round can change what is found.
-/

set_option autoImplicit false

namespace Rkvs.Analysis

open Rkvs.Library Rkvs.Model Rkvs.Interface

/-! ## Selection -/

/-- INTERNAL: a round selects segments of the level. -/
theorem selectRound_subset {segments selected selected' : List Sst.Segment}
    {size curr size' curr' : ℕ}
    (h : Sst.selectRound segments size curr selected = .ok (size', curr', selected')) :
    ∀ s ∈ selected', s ∈ selected ∨ s ∈ segments := by
  induction segments generalizing size curr selected with
  | nil =>
    cases h
    exact fun s hs => Or.inl hs
  | cons t segments ih =>
    rw [Sst.selectRound] at h
    split at h
    · obtain ⟨size₁, -, h⟩ := exec_bind_eq_ok.mp h
      obtain ⟨curr₁, -, h⟩ := exec_bind_eq_ok.mp h
      intro s hs
      obtain hs | hs := ih h s hs
      · refine (List.mem_append.mp hs).imp_right fun hmem => ?_
        exact List.mem_singleton.mp hmem ▸ List.mem_cons_self ..
      · exact Or.inr (List.mem_cons_of_mem _ hs)
    · obtain ⟨curr₁, -, h⟩ := exec_bind_eq_ok.mp h
      exact fun s hs => (ih h s hs).imp_right (List.mem_cons_of_mem _)

/-- INTERNAL: so do all rounds. -/
theorem selectLoop_subset {segments selected selected' : List Sst.Segment}
    {targetSize fuel size curr : ℕ}
    (h : Sst.selectLoop segments targetSize fuel size curr selected = .ok selected')
    (hselected : ∀ s ∈ selected, s ∈ segments) : ∀ s ∈ selected', s ∈ segments := by
  induction fuel generalizing size curr selected with
  | zero => cases h
  | succ fuel ih =>
    rw [Sst.selectLoop] at h
    split at h
    · obtain ⟨⟨size₁, curr₁, selected₁⟩, hround, h⟩ := exec_bind_eq_ok.mp h
      exact ih h fun s hs => (selectRound_subset hround s hs).elim (hselected s) fun hmem => hmem
    · cases h
      exact hselected

/-- What is selected are segments of the level.
SOURCE: level.rs:298-312 -/
theorem selectForMerge_subset {segments selected : List Sst.Segment} {targetSize : ℕ}
    (h : Sst.selectForMerge segments targetSize = .ok selected) :
    ∀ s ∈ selected, s ∈ segments := by
  obtain ⟨size, -, h⟩ := exec_bind_eq_ok.mp h
  exact selectLoop_subset h fun s hs => absurd hs List.not_mem_nil

/-! ## Lookups -/

/-- SOURCE: sstable.rs:73-83 -/
theorem getFromLevels_of_gets {levels : List Sst.PartitionedLevel} {key : String}
    (h : ∀ l ∈ levels, l.get key = .ok (entryFor (allEntries l.segments) key)) :
    Sst.LevelContainer.getFromLevels key levels = .ok (lookupLevels key levels) := by
  induction levels with
  | nil => rfl
  | cons l levels ih =>
    rw [Sst.LevelContainer.getFromLevels, h l (List.mem_cons_self ..), exec_ok_bind]
    unfold lookupLevels
    rw [List.findSome?_cons]
    cases entryFor (allEntries l.segments) key with
    | none => exact ih fun m hm => h m (List.mem_cons_of_mem _ hm)
    | some e => rfl

/-- INTERNAL: a read of good levels finds what is there. -/
theorem getFromLevels_eq {levels : List Sst.PartitionedLevel} (h : ∀ l ∈ levels, GoodLevel l)
    (key : String) : Sst.LevelContainer.getFromLevels key levels = .ok (lookupLevels key levels) :=
  getFromLevels_of_gets fun l hl => partitioned_get (h l hl).partitioned (h l hl).whole rfl key

/-- A container answers with what level zero has, or else with what the levels have. -/
theorem container_get {c : Sst.LevelContainer} (h : GoodContainer c) (key : String) :
    ∃ r, c.levelZero.get key = .ok r ∧ Newest (allEntries c.levelZero.segments) key r ∧
      c.get key = .ok (r.or (lookupLevels key c.partitionedLevels)) := by
  obtain ⟨r, hr, hnewest⟩ := overlapping_get h.levelZero key
  refine ⟨r, hr, hnewest, ?_⟩
  unfold Sst.LevelContainer.get
  rw [hr, exec_ok_bind]
  cases r with
  | none => exact getFromLevels_eq h.levels key
  | some e => rfl

/-- INTERNAL: levels are looked up one after the other. -/
theorem lookupLevels_append (key : String) (front behind : List Sst.PartitionedLevel) :
    lookupLevels key (front ++ behind) =
      (lookupLevels key front).or (lookupLevels key behind) := List.findSome?_append

/-! ## The loop -/

/-- INTERNAL: what a merge gives for a key of which nothing is merged. -/
theorem newest_of_absent {es fs : List SsTableEntry} {key : String} {r : Option SsTableEntry}
    (hnodup : (es.map SsTableEntry.key).Nodup) (h : Newest (es ++ fs) key r)
    (habsent : ∀ f ∈ fs, f.key ≠ key) : r = entryFor es key := by
  have hes : Newest es key r := by
    refine h.congr fun f hf => ?_
    rw [List.mem_append]
    exact ⟨fun hmem => hmem.resolve_right fun hfs => habsent f hfs hf, Or.inl⟩
  cases r with
  | none =>
    symm
    refine List.find?_eq_none.mpr fun e he => ?_
    simpa using hes e he
  | some e =>
    obtain ⟨hmem, rfl, -⟩ := hes
    exact (entryFor_of_mem hnodup hmem).symm

/-- INTERNAL: the keys of the first level are different ones. -/
theorem firstSegments_nodup {levels : List Sst.PartitionedLevel} (h : ∀ l ∈ levels, GoodLevel l) :
    ((allEntries (firstSegments levels)).map SsTableEntry.key).Nodup := by
  cases levels with
  | nil => exact List.nodup_nil
  | cons l levels =>
    have hl := h l (List.mem_cons_self ..)
    exact nodup_keys hl.partitioned hl.whole

/-- INTERNAL: what the first level has comes before what the others have. -/
theorem or_lookup_tail (key : String) (levels : List Sst.PartitionedLevel) :
    (entryFor (allEntries (firstSegments levels)) key).or (lookupLevels key levels.tail) =
      lookupLevels key levels := by
  cases levels with
  | nil => rfl
  | cons l levels =>
    unfold lookupLevels
    rw [List.findSome?_cons]
    show (entryFor (allEntries l.segments) key).or _ = _
    cases entryFor (allEntries l.segments) key <;> rfl

section
variable {merge : Sst.Merge} (hmerge : MergesNewest merge)
include hmerge

/-- INTERNAL: a merge of the loop.
SOURCE: compaction.rs:57-60, 70-73 -/
theorem mergeInto_ok {bt bt' : Sst.CompactionBt} {level level' : Sst.PartitionedLevel}
    {incoming : List Sst.Segment} (hlevel : GoodLevel level) (hincoming : ∀ s ∈ incoming, Whole s)
    (h : (Sst.CompactionBt.mergeInto merge level incoming).run bt = .ok level' bt') :
    bt'.container = bt.container ∧ GoodLevel level' ∧
      ∀ key, Newest (allEntries (level.segments ++ incoming)) key
        (entryFor (allEntries level'.segments) key) := by
  obtain ⟨⟨level₁, deleted⟩, bt₁, hdir, h⟩ := run_bind_eq_ok h
  obtain ⟨u, bt₂, hnote, h⟩ := run_bind_eq_ok h
  cases h
  cases hnote
  obtain ⟨dir, hrun, rfl⟩ := run_onPart_eq_ok hdir
  exact ⟨rfl, hmerge _ _ _ _ _ _ hlevel hincoming hrun⟩

/-- INTERNAL: a round of the loop.
SOURCE: compaction.rs:53-75, 105-127 -/
theorem compactRound_ok {levels : List Sst.PartitionedLevel} {newLevel : Sst.PartitionedLevel}
    {chosen : List Sst.Segment} {target target' number : ℕ} {bt bt' : Sst.CompactionBt}
    (hlevels : ∀ l ∈ levels, GoodLevel l) (hchosen : ∀ s ∈ chosen, Whole s)
    (h : (Sst.CompactionBt.compactRound merge levels chosen target number).run bt =
      .ok (newLevel, target') bt') :
    bt'.container = bt.container ∧ GoodLevel newLevel ∧
      ∀ key, Newest (allEntries (firstSegments levels ++ chosen)) key
        (entryFor (allEntries newLevel.segments) key) := by
  cases levels with
  | nil =>
    rw [Sst.CompactionBt.compactRound] at h
    obtain ⟨_, _, hget, hnew⟩ := run_bind_eq_ok h
    cases hget
    obtain ⟨targetSize, _, htarget, hmerged⟩ := run_bind_eq_ok hnew
    obtain ⟨-, rfl⟩ := run_liftExec_eq_ok htarget
    obtain ⟨newLevel', _, hinto, hreturn⟩ := run_bind_eq_ok hmerged
    cases hreturn
    have hempty : GoodLevel (Sst.PartitionedLevel.new targetSize number) :=
      ⟨List.Pairwise.nil, fun s hs => absurd hs List.not_mem_nil⟩
    exact mergeInto_ok hmerge hempty hchosen hinto
  | cons level levels =>
    rw [Sst.CompactionBt.compactRound] at h
    obtain ⟨newLevel', bt₁, hinto, h⟩ := run_bind_eq_ok h
    cases h
    exact mergeInto_ok hmerge (hlevels level (List.mem_cons_self ..)) hchosen hinto

/-- What the loop returns holds the newest of what is merged first, and the rest as it was.
SOURCE: compaction.rs:52-83, 104-135 -/
theorem compactLoop_ok {fuel : ℕ} {levels newLevels res : List Sst.PartitionedLevel}
    {chosen : List Sst.Segment} {target number : ℕ} {bt bt' : Sst.CompactionBt}
    (hlevels : ∀ l ∈ levels, GoodLevel l) (hchosen : ∀ s ∈ chosen, Whole s)
    (h : (Sst.CompactionBt.compactLoop merge fuel levels chosen target number newLevels).run bt =
      .ok res bt') :
    bt'.container = bt.container ∧ ∃ tail, res = newLevels ++ tail ∧ (∀ l ∈ tail, GoodLevel l) ∧
      ∀ key, ∃ r, Newest (allEntries (firstSegments levels ++ chosen)) key r ∧
        lookupLevels key tail = r.or (lookupLevels key levels.tail) := by
  induction fuel generalizing levels chosen target number newLevels bt with
  | zero => cases h
  | succ fuel ih =>
    rw [Sst.CompactionBt.compactLoop] at h
    obtain ⟨⟨newLevel, target'⟩, _, hround, hcount⟩ := run_bind_eq_ok h
    obtain ⟨number', _, hnumber, hcheck⟩ := run_bind_eq_ok hcount
    obtain ⟨-, rfl⟩ := run_liftExec_eq_ok hnumber
    obtain ⟨big, _, hexceeds, hrest⟩ := run_bind_eq_ok hcheck
    obtain ⟨-, rfl⟩ := run_liftExec_eq_ok hexceeds
    obtain ⟨hcontainer, hnew, hnewest⟩ := compactRound_ok hmerge hlevels hchosen hround
    have htail : ∀ l ∈ levels.tail, GoodLevel l := fun l hl => hlevels l (List.mem_of_mem_tail hl)
    cases big with
    | false =>
      cases hrest
      refine ⟨hcontainer, newLevel :: levels.tail, by simp, ?_, fun key => ⟨_, hnewest key, ?_⟩⟩
      · intro l hl
        obtain rfl | hl := List.mem_cons.mp hl
        · exact hnew
        · exact htail l hl
      · unfold lookupLevels
        rw [List.findSome?_cons]
        cases entryFor (allEntries newLevel.segments) key <;> rfl
    | true =>
      obtain ⟨chosen', _, hchosen', hloop⟩ := run_bind_eq_ok hrest
      obtain ⟨hselect, rfl⟩ := run_liftExec_eq_ok hchosen'
      have hsubset := selectForMerge_subset hselect
      obtain ⟨hcontainer', tail, hres, hgood, hlookup⟩ :=
        ih htail (fun s hs => hnew.whole s (hsubset s hs)) hloop
      refine ⟨hcontainer'.trans hcontainer, newLevel :: tail, by simp [hres], ?_, fun key => ?_⟩
      · intro l hl
        obtain rfl | hl := List.mem_cons.mp hl
        · exact hnew
        · exact hgood l hl
      refine ⟨_, hnewest key, ?_⟩
      unfold lookupLevels
      rw [List.findSome?_cons]
      cases hentry : entryFor (allEntries newLevel.segments) key with
      | some e => rfl
      | none =>
        -- nothing with the key is selected, so the next level keeps what it has
        obtain ⟨r, hr, htailKey⟩ := hlookup key
        have habsent : ∀ f ∈ allEntries chosen', f.key ≠ key := by
          intro f hf
          obtain ⟨s, hs, hfs⟩ := mem_allEntries.mp hf
          simpa using List.find?_eq_none.mp hentry f (mem_allEntries.mpr ⟨s, hsubset s hs, hfs⟩)
        rw [allEntries_append] at hr
        have hsame := newest_of_absent (firstSegments_nodup htail) hr habsent
        show lookupLevels key tail = lookupLevels key levels.tail
        rw [htailKey, hsame, or_lookup_tail]

end

/-- INTERNAL: a loop that returns could compute the number and the target size of a new level.
SOURCE: compaction.rs:63-68, 76, 115-120, 128 -/
theorem compactLoop_starts {merge : Sst.Merge} {fuel : ℕ}
    {levels newLevels res : List Sst.PartitionedLevel} {chosen : List Sst.Segment}
    {target number : ℕ} {bt bt' : Sst.CompactionBt}
    (h : (Sst.CompactionBt.compactLoop merge fuel levels chosen target number newLevels).run bt =
      .ok res bt') :
    number + 1 < 2 ^ 64 ∧ (levels = [] → target * bt.levelSizeFactor < 2 ^ 64) := by
  cases fuel with
  | zero => cases h
  | succ fuel =>
    rw [Sst.CompactionBt.compactLoop] at h
    obtain ⟨_, _, hround, hcount⟩ := run_bind_eq_ok h
    obtain ⟨_, _, hnumber, -⟩ := run_bind_eq_ok hcount
    obtain ⟨hadd, -⟩ := run_liftExec_eq_ok hnumber
    constructor
    · by_contra hlarge
      rw [checkedAdd, if_neg hlarge] at hadd
      cases hadd
    · rintro rfl
      rw [Sst.CompactionBt.compactRound] at hround
      obtain ⟨_, _, hget, hnew⟩ := run_bind_eq_ok hround
      cases hget
      obtain ⟨_, _, htarget, -⟩ := run_bind_eq_ok hnew
      obtain ⟨hmul, -⟩ := run_liftExec_eq_ok htarget
      by_contra hlarge
      rw [checkedMul, if_neg hlarge] at hmul
      cases hmul

end Rkvs.Analysis

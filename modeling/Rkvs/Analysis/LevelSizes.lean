import Rkvs.Analysis.Cascade
import Rkvs.Analysis.RecoverySteps
import Rkvs.Interface.LevelSizes
import Mathlib.Algebra.Order.Ring.Nat

/-!
# The target sizes that levels get

A merge keeps the target and the number of its level. A compaction gives every level that it
creates the same target, and a restart the product of the factors, so both agree with the planned
sizes for a few levels only.
-/

set_option autoImplicit false

namespace Rkvs.Analysis

open Rkvs.Library Rkvs.Model Rkvs.Interface

/-! ## The levels of a cascade -/

/-- INTERNAL: the target size and the number of a level. -/
def shape (level : Sst.PartitionedLevel) : ℕ × ℕ := (level.targetSize, level.levelNumber)

/-- INTERNAL: the target size that new levels go by. -/
def lastTarget (levels : List Sst.PartitionedLevel) (target : ℕ) : ℕ :=
  (levels.getLast?.map Sst.PartitionedLevel.targetSize).getD target

/-- INTERNAL: the levels that a compaction creates. -/
def createdShapes (target number created : ℕ) : List (ℕ × ℕ) :=
  (List.range created).map fun i => (target, number + i)

section
variable {writes : MergeWrites} {levels res : List Sst.PartitionedLevel} {target number : ℕ}
  {bt bt' : Sst.CompactionBt}

/-- INTERNAL: a merge keeps the target and the number of a level. -/
theorem merge_shape {level level' : Sst.PartitionedLevel} {incoming deleted : List Sst.Segment}
    {d d' : Dir}
    (h : (Sst.PartitionedLevel.merge writes level incoming).run d = .ok (level', deleted) d') :
    shape level' = shape level := by
  obtain ⟨out, mid, -, hreturn⟩ := run_bind_eq_ok h
  cases hreturn
  rfl

/-- INTERNAL: the shapes of one created level more. -/
theorem createdShapes_succ (created : ℕ) : createdShapes target number (created + 1) =
    (target, number) :: createdShapes target (number + 1) created := by
  unfold createdShapes
  rw [List.range_succ_eq_map, List.map_cons, List.map_map]
  congr 1
  apply List.map_congr_left
  intro i _
  exact congrArg (Prod.mk target) (by omega)

/-- INTERNAL: the levels of a cascade keep their targets, and those that it creates all have one.
SOURCE: compaction.rs:53-75, 105-127 -/
theorem cascade_shapes {chosen : List Sst.Segment}
    (h : Cascade (Sst.PartitionedLevel.merge writes) levels chosen target number bt res bt') :
    (bt'.container = bt.container ∧ bt'.levelSizeFactor = bt.levelSizeFactor) ∧
      ∃ created, res.map shape = levels.map shape ++
        createdShapes (lastTarget levels target * bt.levelSizeFactor) (number + levels.length)
          created := by
  induction h with
  | @last levels chosen target number bt bt' newLevel target' round counted within =>
    obtain ⟨deleted, dir, hrun, rfl, -⟩ := compactRound_eq_ok round
    refine ⟨⟨rfl, rfl⟩, ?_⟩
    cases levels with
    | nil => exact ⟨1, congrArg (· :: []) (merge_shape hrun)⟩
    | cons level levels =>
      refine ⟨0, ?_⟩
      rw [List.map_cons, merge_shape hrun]
      exact (List.append_nil _).symm
  | @next levels res chosen chosen' target number bt mid bt' newLevel target' round counted exceeds
      selected rest ih =>
    obtain ⟨deleted, dir, hrun, rfl, rfl⟩ := compactRound_eq_ok round
    obtain ⟨⟨hcontainer, hfactor⟩, created, hshapes⟩ := ih
    refine ⟨⟨hcontainer, hfactor⟩, ?_⟩
    cases levels with
    | nil =>
      refine ⟨created + 1, ?_⟩
      rw [List.map_cons, merge_shape hrun, hshapes, createdShapes_succ]
      rfl
    | cons level levels =>
      have hlast : lastTarget levels level.targetSize = lastTarget (level :: levels) target := by
        unfold lastTarget
        cases levels with
        | nil => rfl
        | cons next levels => rw [List.getLast?_cons_cons, List.getLast?_cons]; rfl
      have hnumber : number + 1 + levels.length = number + (level :: levels).length := by
        rw [List.length_cons]
        omega
      refine ⟨created, ?_⟩
      rw [List.map_cons, merge_shape hrun, hshapes]
      exact congrArg (shape level :: ·) (by
        rw [← hnumber, ← hlast]
        rfl)

end

/-! ## Planned sizes -/

section
variable {t f : ℕ}

/-- INTERNAL: the planned size of a number. -/
def Planned (t f : ℕ) (p : ℕ × ℕ) : Prop := p.1 = t * f ^ p.2

/-- INTERNAL: different levels are planned with different sizes. -/
theorem planned_inj (ht : 1 ≤ t) (hf : 2 ≤ f) {m n : ℕ} (h : t * f ^ m = t * f ^ n) : m = n :=
  Nat.pow_right_injective hf (Nat.eq_of_mul_eq_mul_left ht h)

/-- INTERNAL: created levels have the planned sizes if there is at most one of them, and it has the
number that its size is planned for. -/
theorem created_planned_iff (ht : 1 ≤ t) (hf : 2 ≤ f) {base number created : ℕ} :
    (∀ p ∈ createdShapes (t * f ^ base * f) number created, Planned t f p) ↔
      created = 0 ∨ created = 1 ∧ base + 1 = number := by
  have hsize : t * f ^ base * f = t * f ^ (base + 1) := by rw [Nat.mul_assoc, ← Nat.pow_succ]
  have hmem : ∀ i, i < created →
      (t * f ^ base * f, number + i) ∈ createdShapes (t * f ^ base * f) number created :=
    fun i hi => List.mem_map.mpr ⟨i, List.mem_range.mpr hi, rfl⟩
  constructor
  · intro h
    match created with
    | 0 => exact Or.inl rfl
    | 1 =>
      have hfirst : t * f ^ base * f = t * f ^ (number + 0) := h _ (hmem 0 Nat.one_pos)
      rw [hsize] at hfirst
      exact Or.inr ⟨rfl, planned_inj ht hf hfirst⟩
    | created + 2 =>
      have hfirst : t * f ^ base * f = t * f ^ (number + 0) := h _ (hmem 0 (by omega))
      have hsecond : t * f ^ base * f = t * f ^ (number + 1) := h _ (hmem 1 (by omega))
      have hsame := planned_inj ht hf (hfirst.symm.trans hsecond)
      omega
  · rintro (rfl | ⟨rfl, rfl⟩) p hp
    · exact absurd hp List.not_mem_nil
    · obtain ⟨i, hi, rfl⟩ := List.mem_map.mp hp
      have hzero : i = 0 := Nat.lt_one_iff.mp (List.mem_range.mp hi)
      rw [hzero]
      exact hsize

/-- INTERNAL: levels of planned sizes with created ones on top, of which there may be one. -/
theorem created_on_top_iff (ht : 1 ≤ t) (hf : 2 ≤ f) {levels res : List Sst.PartitionedLevel}
    {target base created : ℕ} (hlevels : ∀ level ∈ levels, Planned t f (shape level))
    (htarget : target = t * f ^ base)
    (hres : res.map shape = levels.map shape ++
      createdShapes (lastTarget levels target * f) (base + 1 + levels.length) created) :
    (∀ level ∈ res, Planned t f (shape level)) ↔
      created = 0 ∨ created = 1 ∧
        ∀ last ∈ levels.getLast?, last.levelNumber + 1 = base + 1 + levels.length := by
  have hall : (∀ level ∈ res, Planned t f (shape level)) ↔
      ∀ p ∈ createdShapes (lastTarget levels target * f) (base + 1 + levels.length) created,
        Planned t f p := by
    rw [← List.forall_mem_map (f := shape) (P := fun p => Planned t f p), hres,
      List.forall_mem_append, List.forall_mem_map]
    exact ⟨fun h => h.2, fun h => ⟨hlevels, h⟩⟩
  rw [hall]
  cases hlast : levels.getLast? with
  | none =>
    have hlen : levels.length = 0 := congrArg List.length (List.getLast?_eq_none_iff.mp hlast)
    have htop : lastTarget levels target = t * f ^ base := by
      unfold lastTarget
      rw [hlast, htarget]
      rfl
    rw [htop, created_planned_iff ht hf, hlen]
    exact or_congr Iff.rfl (and_congr Iff.rfl
      ⟨fun _ last hmem => (nomatch hmem), fun _ => rfl⟩)
  | some last =>
    have htop : lastTarget levels target = t * f ^ last.levelNumber := by
      unfold lastTarget
      rw [hlast]
      exact hlevels last (List.mem_of_getLast? hlast)
    rw [htop, created_planned_iff ht hf]
    refine or_congr Iff.rfl (and_congr Iff.rfl ⟨fun hnext last' hlast' => ?_, fun h => h last rfl⟩)
    cases hlast'
    exact hnext

/-- INTERNAL: a cascade into levels of planned sizes leaves such levels if and only if at most one
is new, with the number that comes next. -/
theorem cascade_planned_iff (ht : 1 ≤ t) (hf : 2 ≤ f) {writes : MergeWrites}
    {levels res : List Sst.PartitionedLevel} {chosen : List Sst.Segment} {target base : ℕ}
    {bt bt' : Sst.CompactionBt} (hlevels : ∀ level ∈ levels, Planned t f (shape level))
    (htarget : target = t * f ^ base) (hfactor : bt.levelSizeFactor = f)
    (h : Cascade (Sst.PartitionedLevel.merge writes) levels chosen target (base + 1) bt res bt') :
    (∀ level ∈ res, Planned t f (shape level)) ↔
      OneOnTop (Sst.PartitionedLevel.merge writes) levels chosen target (base + 1) bt := by
  obtain ⟨-, created, hshapes⟩ := cascade_shapes h
  rw [hfactor] at hshapes
  have hlength : res.length = levels.length + created := by
    have hmap := congrArg List.length hshapes
    unfold createdShapes at hmap
    simp only [List.length_map, List.length_append, List.length_range] at hmap
    exact hmap
  rw [created_on_top_iff ht hf hlevels htarget hshapes]
  constructor
  · intro hcreated chosen₁ target₁ number₁ mid hpasses
    obtain ⟨rfl, front, tail, rfl, hfront, htail⟩ := cascade_of_passes hpasses h
    rw [List.length_append] at hlength
    cases htail with
    | last round _ within =>
      obtain rfl | ⟨rfl, hnext⟩ := hcreated
      · rw [List.length_cons] at hlength
        omega
      · refine ⟨hnext, fun newLevel target' bt₂ hround => ?_⟩
        cases round.symm.trans hround
        exact within
    | next round _ exceeds selected rest =>
      have hpos := cascade_res_pos rest
      rw [List.length_cons] at hlength
      omega
  · intro hone
    obtain hstays | ⟨chosen₁, target₁, number₁, mid, hpasses⟩ := cascade_passes h
    · exact Or.inl (by omega)
    · obtain ⟨rfl, front, tail, rfl, hfront, htail⟩ := cascade_of_passes hpasses h
      obtain ⟨hnext, hfits⟩ := hone _ _ _ _ hpasses
      rw [List.length_append] at hlength
      cases htail with
      | last round _ within =>
        have hsingle : ∀ {level : Sst.PartitionedLevel},
            (level :: ([] : List Sst.PartitionedLevel).tail).length = 1 := rfl
        rw [hsingle] at hlength
        exact Or.inr ⟨by omega, hnext⟩
      | next round _ exceeds selected rest =>
        cases (hfits _ _ _ round).symm.trans exceeds

end

/-! ## The levels of a restart -/

section
variable {t f : ℕ} {writes : MergeWrites}

/-- INTERNAL: a level has the target size that a restart computes for its number. -/
def RecoveredSize (t f : ℕ) (p : ℕ × ℕ) : Prop := 0 < p.2 ∧ p.1 = t * p.2 * f

/-- INTERNAL: a level with the target of its number is as planned. -/
theorem recoveredSize_of_target {level : Sst.PartitionedLevel} (hpos : 0 < level.levelNumber)
    (h : Sst.LevelContainer.levelTargetSize t f level.levelNumber = .ok level.targetSize) :
    RecoveredSize t f (shape level) := by
  obtain ⟨size, hfirst, hsecond⟩ := exec_bind_eq_ok.mp h
  refine ⟨hpos, ?_⟩
  rw [← (checkedMul_eq_ok hfirst).1] at hsecond
  exact (checkedMul_eq_ok hsecond).1.symm

/-- INTERNAL: a restart keeps the targets of the levels it has found.
SOURCE: level.rs:189-203 -/
theorem recoverLevels_shapes {levels recovered res : List Sst.PartitionedLevel}
    {chosen selected : List Sst.Segment} {d d' : Dir}
    (h : (Sst.LevelContainer.recoverLevels (Sst.PartitionedLevel.merge writes) levels chosen
      recovered).run d = .ok (res, selected) d') :
    res.map shape = recovered.map shape ++ levels.map shape := by
  induction levels generalizing chosen recovered d with
  | nil =>
    cases h
    exact (List.append_nil _).symm
  | cons level levels ih =>
    obtain ⟨newLevel, mid, chosen', hmerge, -, hrest⟩ := recoverLevels_cons h
    have hshape : shape newLevel = shape level := by
      obtain ⟨-, rfl, -⟩ | ⟨-, hmerge⟩ := hmerge
      · rfl
      · obtain ⟨deleted, mid₁, hrun, -⟩ := mergeAndRemove_eq_ok hmerge
        exact merge_shape hrun
    rw [ih hrest, List.map_append, List.append_assoc, List.map_singleton, hshape]
    rfl

/-- INTERNAL: a size that a restart has computed is the planned one for the agreed numbers. -/
theorem recovered_planned_iff (ht : 1 ≤ t) (hf : 2 ≤ f) {p : ℕ × ℕ} (h : RecoveredSize t f p) :
    Planned t f p ↔ AgreedNumber f p.2 := by
  obtain ⟨size, n⟩ := p
  obtain ⟨hpos, hsize⟩ := h
  dsimp only at hpos hsize ⊢
  unfold Planned AgreedNumber
  obtain ⟨m, rfl⟩ := Nat.exists_eq_succ_of_ne_zero hpos.ne'
  have hcancel : t * (m + 1) * f = t * f ^ (m + 1) ↔ m + 1 = f ^ m := by
    rw [Nat.pow_succ, ← Nat.mul_assoc]
    constructor
    · intro hmul
      exact Nat.eq_of_mul_eq_mul_left ht (Nat.eq_of_mul_eq_mul_right (by omega) hmul)
    · intro hpow
      rw [hpow]
  rw [hsize, hcancel]
  constructor
  · intro hpow
    match m with
    | 0 => exact Or.inl rfl
    | 1 =>
      rw [Nat.pow_one] at hpow
      exact Or.inr ⟨rfl, hpow.symm⟩
    | m + 2 =>
      have hlarge : m + 3 < 2 ^ (m + 2) := by
        clear hpow hcancel hsize hpos
        induction m with
        | zero => decide
        | succ m ih =>
          rw [Nat.pow_succ]
          omega
      have hle : 2 ^ (m + 2) ≤ f ^ (m + 2) := Nat.pow_le_pow_left hf _
      omega
  · rintro (hone | ⟨htwo, rfl⟩)
    · have hzero : m = 0 := by omega
      rw [hzero]
      rfl
    · have hm : m = 1 := by omega
      rw [hm]
      rfl

/-- INTERNAL: nothing is selected when nothing is to be added. -/
theorem adds_nil {recovered recovered₁ : List Sst.PartitionedLevel}
    {selected₁ : List Sst.Segment} {d mid₁ : Dir}
    (h : Adds t f (Sst.PartitionedLevel.merge writes) recovered [] d recovered₁ selected₁ mid₁) :
    selected₁ = [] := by
  cases h with
  | done => rfl
  | next asked => exact absurd rfl asked

/-- INTERNAL: the levels after a restart that adds some have planned sizes if and only if those
before have, and only levels of agreed numbers are added.
SOURCE: level.rs:205-217 -/
theorem addLevels_planned_iff (ht : 1 ≤ t) (hf : 2 ≤ f) {fuel : ℕ}
    {recovered res : List Sst.PartitionedLevel} {selected : List Sst.Segment} {d d' : Dir}
    (h : (Sst.LevelContainer.addLevels t f (Sst.PartitionedLevel.merge writes) fuel recovered
      selected).run d = .ok res d') :
    (∀ level ∈ res, Planned t f (shape level)) ↔ (∀ level ∈ recovered, Planned t f (shape level)) ∧
      ∀ recovered₁ selected₁ mid₁, Adds t f (Sst.PartitionedLevel.merge writes) recovered selected d
        recovered₁ selected₁ mid₁ → selected₁ ≠ [] → AgreedNumber f (recovered₁.length + 1) := by
  induction fuel generalizing recovered selected d with
  | zero =>
    cases selected with
    | nil =>
      obtain ⟨rfl, rfl⟩ := addLevels_nil h
      exact (and_iff_left fun _ _ _ hadds hne => absurd (adds_nil hadds) hne).symm
    | cons s selected => cases h
  | succ fuel ih =>
    by_cases hne : selected = []
    · subst hne
      obtain ⟨rfl, rfl⟩ := addLevels_nil h
      exact (and_iff_left fun _ _ _ hadds hne => absurd (adds_nil hadds) hne).symm
    · obtain ⟨more, size, newLevel, mid, selected', hfuel, htarget, hmerge, hselects, hrest⟩ :=
        addLevels_cons hne h
      cases hfuel
      obtain ⟨deleted, mid₁, hrun, -⟩ := mergeAndRemove_eq_ok hmerge
      have hsize := @recoveredSize_of_target t f
        (Sst.PartitionedLevel.new size (recovered.length + 1)) (Nat.succ_pos _) htarget
      have hnew : Planned t f (shape newLevel) ↔ AgreedNumber f (recovered.length + 1) := by
        rw [merge_shape hrun]
        exact recovered_planned_iff ht hf hsize
      rw [ih hrest, List.forall_mem_append, List.forall_mem_singleton, hnew]
      constructor
      · rintro ⟨⟨hrecovered, hagreed⟩, hlater⟩
        refine ⟨hrecovered, fun recovered₁ selected₁ mid₁ hadds hne₁ => ?_⟩
        cases hadds with
        | done => exact hagreed
        | next _ target merged selects rest =>
          cases htarget.symm.trans target
          cases hmerge.symm.trans merged
          cases hselects.symm.trans selects
          exact hlater _ _ _ rest hne₁
      · rintro ⟨hrecovered, hadds⟩
        refine ⟨⟨hrecovered, hadds _ _ _ .done hne⟩, fun recovered₁ selected₁ _ hlater hne₁ => ?_⟩
        exact hadds _ _ _ (.next hne htarget hmerge hselects hlater) hne₁

/-- INTERNAL: the levels after a restart have planned sizes if and only if all that it finds and
adds have agreed numbers.
SOURCE: level.rs:81-222 -/
theorem fromDir_planned_iff (ht : 1 ≤ t) (hf : 2 ≤ f) {sparsity fuel : ℕ} {dir d' : Dir}
    {c : Sst.LevelContainer}
    (h : (Sst.LevelContainer.fromDir t f sparsity (Sst.PartitionedLevel.merge writes) fuel).run
      dir = .ok c d') :
    c.levelZero.targetSize = t ∧ (SizesAgree t f c ↔
      RestartAgrees t f (Sst.PartitionedLevel.merge writes) sparsity dir) := by
  obtain ⟨opened, d, hopen, hrest⟩ := fromDir_steps h
  unfold RestartAgrees
  obtain ⟨rfl, rfl, rfl⟩ | ⟨sorted, levels, recovered, res, chosen, selected, mid, hsteps, rfl⟩ :=
    hrest
  · refine ⟨rfl, iff_of_true (fun level hlevel => absurd hlevel List.not_mem_nil) ?_⟩
    intro opened₁ d₁ hopen₁
    cases hopen.symm.trans hopen₁
    refine ⟨fun s hs => absurd hs List.not_mem_nil, ?_⟩
    intro zero levels chosen recovered selected mid hgroup hselect hrecover
    rw [List.mergeSort_nil] at hgroup
    cases hgroup
    rw [List.mergeSort_nil] at hselect
    cases hselect.symm.trans (selectForMerge_within rfl (Nat.zero_le t))
    cases hrecover
    exact fun _ _ _ hadds hne => absurd (adds_nil hadds) hne
  · refine ⟨rfl, ?_⟩
    have hshapes := recoverLevels_shapes hsteps.recovery
    rw [List.map_nil, List.nil_append] at hshapes
    have hfound : (∀ level ∈ recovered, Planned t f (shape level)) ↔
        ∀ s ∈ opened, s.levelNumber = 0 ∨ AgreedNumber f s.levelNumber := by
      rw [← List.forall_mem_map (f := shape) (P := fun p => Planned t f p), hshapes,
        List.forall_mem_map]
      have hlevel : ∀ level ∈ levels,
          Planned t f (shape level) ↔ AgreedNumber f level.levelNumber := by
        intro level hlevel
        apply recovered_planned_iff ht hf
        exact recoveredSize_of_target (hsteps.grouped.positive level hlevel)
          (hsteps.grouped.target level hlevel)
      constructor
      · intro hall s hs
        obtain hzero | hpos := Nat.eq_zero_or_pos s.levelNumber
        · exact Or.inl hzero
        · obtain ⟨level, hmem, hnumber⟩ :=
            hsteps.grouped.complete s (hsteps.perm.mem_iff.mpr hs) hpos
          rw [← hnumber]
          exact Or.inr ((hlevel level hmem).mp (hall level hmem))
      · intro hall level hmem
        obtain ⟨s, hs, hnumber⟩ := hsteps.grouped.inhabited level hmem
        obtain hzero | hagreed := hall s (hsteps.perm.mem_iff.mp hs)
        · exact absurd (hnumber.symm.trans hzero) (hsteps.grouped.positive level hmem).ne'
        · rw [hnumber] at hagreed
          exact (hlevel level hmem).mpr hagreed
    refine (addLevels_planned_iff ht hf hsteps.added).trans ?_
    rw [hfound]
    constructor
    · rintro ⟨hopened, hadds⟩ opened₁ d₁ hopen₁
      cases hopen.symm.trans hopen₁
      refine ⟨hopened, ?_⟩
      intro zero levels₁ chosen₁ recovered₁ selected₁ mid₁ hgroup hselect hrecover
      rw [← hsteps.order] at hgroup
      cases hsteps.grouping.symm.trans hgroup
      cases hsteps.choice.symm.trans hselect
      cases hsteps.recovery.symm.trans hrecover
      exact hadds
    · intro hall
      obtain ⟨hopened, hadds⟩ := hall _ _ hopen
      have hgrouping := hsteps.grouping
      rw [hsteps.order] at hgrouping
      refine ⟨hopened, ?_⟩
      apply hadds _ _ _ _ _ _ hgrouping _ hsteps.recovery
      rw [← hsteps.order]
      exact hsteps.choice

end

/-! ## Runs -/

section
variable {t f : ℕ}

/-- INTERNAL: what every step keeps. -/
structure SameTargets (t f : ℕ) (bt : Sst.CompactionBt) : Prop where
  levelZero : bt.container.levelZero.targetSize = t
  factor : bt.levelSizeFactor = f

/-- INTERNAL: a flush keeps the targets.
SOURCE: level.rs:248-267 -/
theorem addToLevelZero_keeps {c c' : Sst.LevelContainer} {dir : Dir} {path : String}
    (h : c.addToLevelZero dir path = .ok c') : c'.levelZero.targetSize = c.levelZero.targetSize ∧
      c'.partitionedLevels = c.partitionedLevels := by
  obtain ⟨opened, -, hadd⟩ := exec_bind_eq_ok.mp h
  cases opened with
  | ok segment =>
    cases hadd
    exact ⟨rfl, rfl⟩
  | error e => cases e <;> cases hadd

/-- INTERNAL: removing files keeps the levels. -/
theorem removeSegmentFiles_keeps {referenced : Sst.Segment → Bool} {bt bt' : Sst.CompactionBt}
    (h : (Sst.CompactionBt.removeSegmentFiles referenced).run bt = .ok () bt') :
    bt'.container = bt.container ∧ bt'.levelSizeFactor = bt.levelSizeFactor := by
  obtain ⟨bt₁, hrun, hkept⟩ := removeSegmentFiles_ok referenced bt
  cases hrun.symm.trans h
  exact hkept

/-- INTERNAL: the levels at which a search ends.
SOURCE: compaction.rs:142-168 -/
theorem findPartitionedLevelsToCompact_append {levels front toCompact : List Sst.PartitionedLevel}
    (h : Sst.CompactionBt.findPartitionedLevelsToCompact levels = .ok (front, toCompact)) :
    levels = front ++ toCompact := by
  induction levels generalizing front with
  | nil =>
    cases h
    rfl
  | cons level levels ih =>
    rw [Sst.CompactionBt.findPartitionedLevelsToCompact] at h
    obtain ⟨exceeded, -, hrest⟩ := exec_bind_eq_ok.mp h
    cases exceeded with
    | true =>
      cases hrest
      rfl
    | false =>
      obtain ⟨⟨front', toCompact'⟩, hfind, hreturn⟩ := exec_bind_eq_ok.mp hrest
      cases hreturn
      rw [ih hfind, List.cons_append]

variable {writes : MergeWrites} {fuel : ℕ} {referenced : Sst.Segment → Bool}
  {bt bt' : Sst.CompactionBt}

/-- INTERNAL: a compaction after a notification.
SOURCE: compaction.rs:36-84, 212-224 -/
theorem notified_planned_iff (ht : 1 ≤ t) (hf : 2 ≤ f) (hsame : SameTargets t f bt)
    (hagree : SizesAgree t f bt.container)
    (h : (Sst.CompactionBt.notified (Sst.PartitionedLevel.merge writes) fuel referenced).run bt =
      .ok () bt') :
    SameTargets t f bt' ∧ (SizesAgree t f bt'.container ↔
      CreatesAsPlanned t f (bt, .notified writes fuel referenced)) := by
  obtain ⟨res, bt₁, hcompact, hswap⟩ := run_bind_eq_ok h
  obtain ⟨⟨⟩, bt₂, hmodify, hremove⟩ := run_bind_eq_ok hswap
  cases hmodify
  obtain ⟨hcontainer, hfactor⟩ := removeSegmentFiles_keeps hremove
  obtain ⟨chosen, hchosen, hcascade⟩ := compactFromLevelZero_cascade hcompact
  obtain ⟨⟨hcontainer₁, hfactor₁⟩, -⟩ := cascade_shapes hcascade
  refine ⟨⟨?_, hfactor.trans (hfactor₁.trans hsame.factor)⟩, ?_⟩
  · rw [hcontainer]
    exact (congrArg (fun c => c.levelZero.targetSize) hcontainer₁).trans hsame.levelZero
  · unfold SizesAgree
    rw [hcontainer]
    have htarget : bt.container.levelZero.targetSize = t * f ^ 0 := by
      rw [hsame.levelZero, Nat.pow_zero, Nat.mul_one]
    refine (cascade_planned_iff ht hf hagree htarget hsame.factor hcascade).trans ?_
    constructor
    · intro hone chosen₁ hchosen₁
      cases hchosen.symm.trans hchosen₁
      exact hone
    · intro hall
      exact hall chosen hchosen

/-- INTERNAL: a compaction without a notification.
SOURCE: compaction.rs:90-168, 225-235 -/
theorem timedOut_planned_iff (ht : 1 ≤ t) (hf : 2 ≤ f) (hsame : SameTargets t f bt)
    (hagree : SizesAgree t f bt.container)
    (h : (Sst.CompactionBt.timedOut (Sst.PartitionedLevel.merge writes) fuel referenced).run bt =
      .ok () bt') :
    SameTargets t f bt' ∧ (SizesAgree t f bt'.container ↔
      CreatesAsPlanned t f (bt, .timedOut writes fuel referenced)) := by
  obtain ⟨⟨⟩, bt₁, hremove, hfind⟩ := run_bind_eq_ok h
  obtain ⟨hcontainer, hfactor⟩ := removeSegmentFiles_keeps hremove
  obtain ⟨_, _, hget, hsplit⟩ := run_bind_eq_ok hfind
  cases hget
  obtain ⟨⟨front, toCompact⟩, _, hlift, hcompact⟩ := run_bind_eq_ok hsplit
  obtain ⟨hfound, rfl⟩ := run_liftExec_eq_ok hlift
  obtain ⟨res, bt₂, hunwrap, hswap⟩ := run_bind_eq_ok hcompact
  cases hswap
  have hrun := Sst.CompactionBt.run_unwrapped_eq_ok.mp hunwrap
  rw [hcontainer] at hfound
  have happend := findPartitionedLevelsToCompact_append hfound
  have hlevels : ∀ level ∈ front ++ toCompact, Planned t f (shape level) := by
    rw [← happend]
    exact hagree
  rw [List.forall_mem_append] at hlevels
  have hresult : ∀ c : Sst.LevelContainer, SizesAgree t f (c.swapPartitionedLevels (front ++ res)) ↔
      ∀ level ∈ res, Planned t f (shape level) := by
    intro c
    refine List.forall_mem_append.trans (and_iff_right hlevels.1)
  show SameTargets t f { bt₂ with
      container := bt₂.container.swapPartitionedLevels (front ++ res) } ∧
    (SizesAgree t f (bt₂.container.swapPartitionedLevels (front ++ res)) ↔ _)
  rw [hresult]
  cases toCompact with
  | nil =>
    cases hrun
    refine ⟨⟨?_, hfactor.trans hsame.factor⟩, iff_of_true (fun level hmem => ?_) ?_⟩
    · exact (congrArg (fun c => c.levelZero.targetSize) hcontainer).trans hsame.levelZero
    · exact absurd hmem List.not_mem_nil
    · intro bt₁ front₁ first behind chosen _ hfound₁
      cases hfound.symm.trans hfound₁
  | cons first behind =>
    obtain ⟨chosen, _, hselect, hcount⟩ := run_bind_eq_ok hrun
    obtain ⟨hchosen, rfl⟩ := run_liftExec_eq_ok hselect
    obtain ⟨number, _, hadd, hloop⟩ := run_bind_eq_ok hcount
    obtain ⟨hnumber, rfl⟩ := run_liftExec_eq_ok hadd
    obtain ⟨rfl, -⟩ := checkedAdd_eq_ok hnumber
    obtain ⟨tail, hres, hcascade⟩ := compactLoop_cascade hloop
    rw [List.nil_append] at hres
    subst hres
    obtain ⟨hfirst, hbehind⟩ := List.forall_mem_cons.mp hlevels.2
    obtain ⟨⟨hcontainer₁, hfactor₁⟩, -⟩ := cascade_shapes hcascade
    have hfactor₂ := hfactor.trans hsame.factor
    refine ⟨⟨?_, hfactor₁.trans hfactor₂⟩, ?_⟩
    · exact (congrArg (fun c => c.levelZero.targetSize) (hcontainer₁.trans hcontainer)).trans
        hsame.levelZero
    · refine (cascade_planned_iff ht hf hbehind hfirst hfactor₂ hcascade).trans ?_
      constructor
      · intro hone bt₁ front₁ first₁ behind₁ chosen₁ hremove₁ hfound₁ hchosen₁
        cases hremove.symm.trans hremove₁
        cases hfound.symm.trans hfound₁
        cases hchosen.symm.trans hchosen₁
        exact hone
      · intro hall
        exact hall _ _ _ _ _ hremove hfound hchosen

/-- INTERNAL: after a step the levels have planned sizes if and only if the step creates such. -/
theorem sizeStep_planned_iff (ht : 1 ≤ t) (hf : 2 ≤ f) {a : SizeAction}
    (hsame : SameTargets t f bt) (hagree : SizesAgree t f bt.container)
    (h : SizeStep t f bt a bt') :
    SameTargets t f bt' ∧ (SizesAgree t f bt'.container ↔ CreatesAsPlanned t f (bt, a)) := by
  cases h with
  | flush added =>
    obtain ⟨htarget, hlevels⟩ := addToLevelZero_keeps added
    refine ⟨⟨htarget.trans hsame.levelZero, hsame.factor⟩, iff_of_true ?_ trivial⟩
    unfold SizesAgree
    rw [hlevels]
    exact hagree
  | files segmentsToDelete dir =>
    exact ⟨⟨hsame.levelZero, hsame.factor⟩, iff_of_true hagree trivial⟩
  | notified returned => exact notified_planned_iff ht hf hsame hagree returned
  | timedOut returned => exact timedOut_planned_iff ht hf hsame hagree returned
  | restart returned =>
    obtain ⟨htarget, hiff⟩ := fromDir_planned_iff ht hf returned
    exact ⟨⟨htarget, rfl⟩, hiff⟩

/-- The levels have the planned sizes in every state of a run if and only if every step creates
levels of such sizes only.
SOURCE: compaction.rs:36-136; level.rs:123-156, 204-217 -/
theorem level_sizes_agree_iff (ht : 1 ≤ t) (hf : 2 ≤ f) {dir : Dir}
    {steps : List (Sst.CompactionBt × SizeAction)}
    (hrun : Run (SizeStep t f) (firstStart t f dir) steps bt) :
    ((∀ p ∈ steps, SizesAgree t f p.1.container) ∧ SizesAgree t f bt.container) ↔
      ∀ p ∈ steps, CreatesAsPlanned t f p := by
  have hstart : SameTargets t f (firstStart t f dir) := ⟨rfl, rfl⟩
  have hempty : SizesAgree t f (firstStart t f dir).container :=
    fun level hlevel => absurd hlevel List.not_mem_nil
  constructor
  · intro hall p hp
    have hsame := @Run.invariant_of_guard _ _ _ _ _ _ (fun p => SizesAgree t f p.1.container)
      (SameTargets t f) hstart
      (fun s a s' hs hagree hstep => (sizeStep_planned_iff ht hf hs hagree hstep).1) hrun hall.1
    obtain ⟨bt', hstep, hagree⟩ := hrun.exists_next (P := fun bt => SizesAgree t f bt.container)
      hall p hp
    exact (sizeStep_planned_iff ht hf (hsame.1 p hp) (hall.1 p hp) hstep).2.mp hagree
  · intro hplanned
    have hkept := hrun.invariant_of_guard
      (I := fun bt => SameTargets t f bt ∧ SizesAgree t f bt.container) ⟨hstart, hempty⟩
      (fun s a s' hs hguard hstep => by
        obtain ⟨hsame, hiff⟩ := sizeStep_planned_iff ht hf hs.1 hs.2 hstep
        exact ⟨hsame, hiff.mpr hguard⟩) hplanned
    exact ⟨fun p hp => (hkept.1 p hp).2, hkept.2.2⟩

end

/-! ## A file of level two -/

/-- INTERNAL: the file of a segment on level two. -/
def levelTwoFiles : Dir := dirHolding [smallBoth] (by decide)

/-- INTERNAL: nothing is merged when the file is found, so it does not matter how. -/
def noWrites : MergeWrites := fun _ _ => throw .panic

/-- INTERNAL: what a restart makes of it. -/
theorem levelTwo_restart : ∃ c dir',
    (Sst.LevelContainer.fromDir 20 3 1 (Sst.PartitionedLevel.merge noWrites) 0).run levelTwoFiles =
      .ok c dir' ∧
    ∃ level ∈ c.partitionedLevels, level.levelNumber = 2 ∧ level.targetSize = 120 := by
  have hopen : (Sst.LevelContainer.openSegments levelTwoFiles.names).run levelTwoFiles =
      .ok [smallBoth] (dirAfter (Sst.LevelContainer.openSegments levelTwoFiles.names)
        levelTwoFiles) := run_of_result (by decide)
  obtain ⟨sorted, levels, hrun, hperm, hgrouped⟩ := @fromDir_run 20 3 1
    (Sst.PartitionedLevel.merge noWrites) 0 _ _ _ hopen
    (fun s hs _ => by
      rw [List.mem_singleton.mp hs]
      exact ⟨120, by decide, by decide⟩) (by decide) (by decide)
  obtain ⟨level, hlevel, hnumber⟩ := hgrouped.complete smallBoth
    (hperm.mem_iff.mpr (List.mem_singleton_self _)) (by decide)
  refine ⟨_, _, hrun, level, hlevel, hnumber, ?_⟩
  have hsize : Sst.LevelContainer.levelTargetSize 20 3 2 = .ok 120 := by decide
  have htarget := hgrouped.target level hlevel
  rw [hnumber] at htarget
  exact Except.ok.inj (htarget.symm.trans hsize)

/-- A restart with one segment on level two, whose level gets another target than it is created
with. -/
theorem level_sizes_agree_levelTwo : ∃ steps bt,
    Run (SizeStep 20 3) (firstStart 20 3 levelTwoFiles) steps bt ∧
    (((∀ p ∈ steps, SizesAgree 20 3 p.1.container) ∧ SizesAgree 20 3 bt.container) ↔
      ∀ p ∈ steps, CreatesAsPlanned 20 3 p) := by
  obtain ⟨c, dir', hrun, -⟩ := levelTwo_restart
  have hstep := @SizeStep.restart 20 3 (firstStart 20 3 levelTwoFiles) _ _ _ _ _ hrun
  have hsteps := Run.nil.snoc hstep
  exact ⟨_, _, hsteps, level_sizes_agree_iff (by decide) (by decide) hsteps⟩

/-- A restart gives level two the size 20 * 2 * 3, not 20 * 3 * 3.
SOURCE: level.rs:137, 149 -/
theorem levelTwo_size_differs : ¬∀ (t f : ℕ) (dir : Dir)
    (steps : List (Sst.CompactionBt × SizeAction)) (bt : Sst.CompactionBt), 1 ≤ t → 2 ≤ f →
      Run (SizeStep t f) (firstStart t f dir) steps bt →
      (∀ p ∈ steps, SizesAgree t f p.1.container) ∧ SizesAgree t f bt.container := by
  intro hall
  obtain ⟨c, dir', hrun, level, hlevel, hnumber, htarget⟩ := levelTwo_restart
  have hstep := @SizeStep.restart 20 3 (firstStart 20 3 levelTwoFiles) _ _ _ _ _ hrun
  have hsteps := Run.nil.snoc hstep
  have hsize := (hall 20 3 levelTwoFiles _ _ (by decide) (by decide) hsteps).2 level hlevel
  rw [hnumber, htarget] at hsize
  exact absurd hsize (by decide)

end Rkvs.Analysis

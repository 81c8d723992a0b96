import Rkvs.Analysis.Recovery
import Rkvs.Interface.Selection

/-!
# The selection of segments for a merge

What a round takes depends only on the places and the numbers of the segments. So the selection
ends exactly if some round leaves no more than the target before the number that is looked for
gets below zero.
-/

set_option autoImplicit false

namespace Rkvs.Analysis

open Rkvs.Library Rkvs.Model Rkvs.Interface

/-! ## One round -/

/-- INTERNAL: the size of one segment more. -/
theorem fileSizes_cons (s : Sst.Segment) (segments : List Sst.Segment) :
    fileSizes (s :: segments) = s.size + fileSizes segments := List.sum_cons

/-- INTERNAL: the segments from a place on whose number the counter meets. -/
def metFrom (segments : List Sst.Segment) (place curr : ℕ) : List Sst.Segment :=
  ((segments.zipIdx place).filter fun p => p.1.number + p.2 = curr + place).map Prod.fst

/-- INTERNAL: the segments met from one place on. -/
theorem metFrom_cons (s : Sst.Segment) (segments : List Sst.Segment) (place curr : ℕ) :
    metFrom (s :: segments) place (curr + 1) =
      if s.number = curr + 1 then s :: metFrom segments (place + 1) curr
      else metFrom segments (place + 1) curr := by
  have hshift : curr + 1 + place = curr + (place + 1) := by omega
  unfold metFrom
  rw [List.zipIdx_cons, List.filter_cons]
  by_cases hnumber : s.number = curr + 1
  · rw [if_pos hnumber, if_pos (by simp [hnumber]), hshift, List.map_cons]
  · rw [if_neg hnumber, if_neg (by simp [hnumber]), hshift]

/-- INTERNAL: a round that the counter is high enough for takes what the counter meets.
SOURCE: level.rs:303-309 -/
theorem selectRound_ok {segments selected : List Sst.Segment} {size curr place : ℕ}
    (hcurr : segments.length ≤ curr) (hsize : fileSizes (metFrom segments place curr) ≤ size) :
    Sst.selectRound segments size curr selected =
      .ok (size - fileSizes (metFrom segments place curr), curr - segments.length,
        selected ++ metFrom segments place curr) := by
  induction segments generalizing size curr place selected with
  | nil => simp [Sst.selectRound, metFrom, fileSizes]
  | cons s segments ih =>
    rw [List.length_cons] at hcurr
    obtain ⟨curr, rfl⟩ := Nat.exists_eq_add_of_lt (Nat.lt_of_lt_of_le (Nat.succ_pos _) hcurr)
    rw [Nat.zero_add] at hcurr hsize ⊢
    rw [metFrom_cons] at hsize ⊢
    have hrest : segments.length ≤ curr := Nat.le_of_succ_le_succ hcurr
    have hminus : checkedSub (curr + 1) 1 = .ok curr := checkedSub_ok (Nat.succ_pos _)
    have hlength : curr + 1 - (s :: segments).length = curr - segments.length := by
      rw [List.length_cons, Nat.add_sub_add_right]
    rw [Sst.selectRound, hlength]
    by_cases hnumber : s.number = curr + 1
    · rw [if_pos hnumber] at hsize ⊢
      rw [if_pos hnumber, fileSizes_cons] at *
      rw [checkedSub_ok (by omega), exec_ok_bind, hminus, exec_ok_bind,
        @ih _ _ _ (place + 1) hrest (by omega), Nat.sub_sub, List.append_assoc]
      rfl
    · rw [if_neg hnumber] at hsize ⊢
      rw [if_neg hnumber, hminus, exec_ok_bind]
      exact ih hrest hsize

/-- INTERNAL: a round counts down once for every segment.
SOURCE: level.rs:303-309 -/
theorem selectRound_length {segments selected selected' : List Sst.Segment}
    {size curr size' curr' : ℕ}
    (h : Sst.selectRound segments size curr selected = .ok (size', curr', selected')) :
    segments.length ≤ curr := by
  induction segments generalizing size curr selected with
  | nil => exact Nat.zero_le _
  | cons s segments ih =>
    have hrest : ∀ {size₁ curr₁ selected₁}, checkedSub curr 1 = .ok curr₁ →
        Sst.selectRound segments size₁ curr₁ selected₁ = .ok (size', curr', selected') →
        (s :: segments).length ≤ curr := by
      intro size₁ curr₁ selected₁ hminus hround
      unfold checkedSub at hminus
      split at hminus
      · cases hminus
        have hle := ih hround
        rw [List.length_cons]
        omega
      · cases hminus
    rw [Sst.selectRound] at h
    split at h
    · obtain ⟨size₁, -, h⟩ := exec_bind_eq_ok.mp h
      obtain ⟨curr₁, hminus, h⟩ := exec_bind_eq_ok.mp h
      exact hrest hminus h
    · obtain ⟨curr₁, hminus, h⟩ := exec_bind_eq_ok.mp h
      exact hrest hminus h

/-! ## The rounds -/

variable {segments : List Sst.Segment} {targetSize : ℕ}

/-- INTERNAL: a place is taken in one round only. -/
theorem takenIn_unique {place : Sst.Segment × ℕ} {r r' : ℕ} (hne : segments ≠ [])
    (h : TakenIn segments r place) (h' : TakenIn segments r' place) : r = r' := by
  have hpos : 0 < segments.length := List.length_pos_iff.mpr hne
  unfold TakenIn at h h'
  have hmul : r * segments.length = r' * segments.length := by omega
  exact Nat.eq_of_mul_eq_mul_right hpos hmul

/-- INTERNAL: the counter of a round meets what the round takes. -/
theorem metFrom_eq {round : ℕ}
    (h : round * segments.length ≤ Sst.highestNumber segments) :
    metFrom segments 0 (Sst.highestNumber segments - round * segments.length) =
      takenIn segments round := by
  unfold metFrom takenIn
  congr 1
  apply List.filter_congr
  intro place _
  apply decide_eq_decide.mpr
  unfold TakenIn
  omega

/-- INTERNAL: sizes of a part and of the rest. -/
theorem fileSizes_filter_split {places : List (Sst.Segment × ℕ)} {p q : Sst.Segment × ℕ → Bool}
    (h : ∀ place ∈ places, q place → p place) :
    fileSizes ((places.filter p).map Prod.fst) =
      fileSizes ((places.filter q).map Prod.fst) +
        fileSizes ((places.filter fun place => p place && !q place).map Prod.fst) := by
  induction places with
  | nil => rfl
  | cons place places ih =>
    have hrest := ih fun place' hmem => h place' (List.mem_cons_of_mem _ hmem)
    have hplace := h place (List.mem_cons_self ..)
    simp only [List.filter_cons]
    cases hq : q place with
    | true =>
      rw [hplace hq]
      simp only [if_true, Bool.not_true, Bool.and_false, List.map_cons, fileSizes_cons, hrest]
      simp [Nat.add_assoc]
    | false =>
      cases hp : p place with
      | true => simp [fileSizes_cons, hrest]; omega
      | false => simpa using hrest

/-- INTERNAL: what a round takes is no longer left after it. -/
theorem leftBefore_succ (hne : segments ≠ []) (round : ℕ) :
    fileSizes (leftBefore segments round) =
      fileSizes (takenIn segments round) + fileSizes (leftBefore segments (round + 1)) := by
  unfold leftBefore takenIn
  rw [@fileSizes_filter_split _ _ fun place => decide (TakenIn segments round place)]
  · congr 3
    apply List.filter_congr
    intro place _
    rw [← decide_not, ← Bool.decide_and]
    apply decide_eq_decide.mpr
    constructor
    · rintro ⟨hbefore, hnow⟩ r hr
      obtain hr | rfl := Nat.lt_succ_iff_lt_or_eq.mp hr
      · exact hbefore r hr
      · exact hnow
    · intro h
      exact ⟨fun r hr => h r (Nat.lt_succ_of_lt hr), h round (Nat.lt_succ_self _)⟩
  · intro place _ htaken
    rw [decide_eq_true_eq] at htaken ⊢
    intro r hr hbefore
    exact absurd (takenIn_unique hne hbefore htaken) (Nat.ne_of_lt hr)

/-- INTERNAL: all rounds before one. -/
def takenBefore (segments : List Sst.Segment) (rounds : ℕ) : List Sst.Segment :=
  (List.range rounds).flatMap (takenIn segments)

/-- INTERNAL: what is taken by one round more. -/
theorem takenBefore_succ (rounds : ℕ) : takenBefore segments (rounds + 1) =
    takenBefore segments rounds ++ takenIn segments rounds := by
  unfold takenBefore
  rw [List.range_succ, List.flatMap_append, List.flatMap_singleton]

/-- INTERNAL: one round of the loop.
SOURCE: level.rs:303-309 -/
theorem selectRound_takenIn {round : ℕ} (hne : segments ≠ [])
    (h : (round + 1) * segments.length ≤ Sst.highestNumber segments) :
    Sst.selectRound segments (fileSizes (leftBefore segments round))
        (Sst.highestNumber segments - round * segments.length) (takenBefore segments round) =
      .ok (fileSizes (leftBefore segments (round + 1)),
        Sst.highestNumber segments - (round + 1) * segments.length,
        takenBefore segments (round + 1)) := by
  rw [Nat.succ_mul] at h
  have hround : round * segments.length ≤ Sst.highestNumber segments := by omega
  have hmet := metFrom_eq hround
  have hsplit := leftBefore_succ hne round
  have hselect := @selectRound_ok segments (takenBefore segments round)
    (fileSizes (leftBefore segments round)) (Sst.highestNumber segments - round * segments.length) 0
    (by omega) (by rw [hmet]; omega)
  rw [hselect, hmet, takenBefore_succ, hsplit, Nat.add_sub_cancel_left, Nat.sub_sub, Nat.succ_mul]

/-- INTERNAL: a loop that returns has gone through enough rounds, by induction on the fuel.
SOURCE: level.rs:302-310 -/
theorem selectLoop_rounds {fuel round : ℕ} {selected : List Sst.Segment}
    (hround : round * segments.length ≤ Sst.highestNumber segments)
    (h : Sst.selectLoop segments targetSize fuel (fileSizes (leftBefore segments round))
      (Sst.highestNumber segments - round * segments.length) (takenBefore segments round) =
        .ok selected) :
    ∃ rounds, rounds * segments.length ≤ Sst.highestNumber segments ∧
      fileSizes (leftBefore segments rounds) ≤ targetSize ∧
      selected = takenBefore segments rounds := by
  induction fuel generalizing round with
  | zero => cases h
  | succ fuel ih =>
    rw [Sst.selectLoop] at h
    split at h
    · rename_i hlarge
      have hne : segments ≠ [] := by
        rintro rfl
        exact absurd hlarge (Nat.not_lt_zero _)
      obtain ⟨⟨size, curr, taken⟩, hstep, hrest⟩ := exec_bind_eq_ok.mp h
      have hlength := selectRound_length hstep
      have hnext : (round + 1) * segments.length ≤ Sst.highestNumber segments := by
        rw [Nat.succ_mul]
        omega
      rw [selectRound_takenIn hne hnext] at hstep
      cases hstep
      exact ih hnext hrest
    · cases h
      exact ⟨round, hround, Nat.not_lt.mp ‹_›, rfl⟩

/-- INTERNAL: a loop with enough rounds before it returns, by induction on these rounds.
SOURCE: level.rs:302-310 -/
theorem selectLoop_returns (more : ℕ) {fuel round : ℕ} (hfuel : more < fuel)
    (hrounds : (round + more) * segments.length ≤ Sst.highestNumber segments)
    (hleft : fileSizes (leftBefore segments (round + more)) ≤ targetSize) :
    ∃ selected, Sst.selectLoop segments targetSize fuel (fileSizes (leftBefore segments round))
      (Sst.highestNumber segments - round * segments.length) (takenBefore segments round) =
        .ok selected := by
  induction more generalizing fuel round with
  | zero =>
    obtain ⟨fuel, rfl⟩ := Nat.exists_eq_add_of_lt hfuel
    have hsmall : ¬targetSize < fileSizes (leftBefore segments round) := Nat.not_lt.mpr hleft
    rw [Sst.selectLoop, if_neg hsmall]
    exact ⟨_, rfl⟩
  | succ more ih =>
    obtain ⟨fuel, rfl⟩ := Nat.exists_eq_succ_of_ne_zero (Nat.ne_zero_of_lt hfuel)
    rw [Sst.selectLoop]
    split
    · rename_i hlarge
      have hne : segments ≠ [] := by
        rintro rfl
        exact absurd hlarge (Nat.not_lt_zero _)
      have hplace : round + 1 + more = round + (more + 1) := by omega
      have hnext : (round + 1) * segments.length ≤ Sst.highestNumber segments := by
        refine (Nat.mul_le_mul_right _ ?_).trans hrounds
        omega
      rw [selectRound_takenIn hne hnext, exec_ok_bind]
      apply ih (Nat.lt_of_succ_lt_succ hfuel)
      · rwa [hplace]
      · rwa [hplace]
    · exact ⟨_, rfl⟩

/-- INTERNAL: everything is left before the first round. -/
theorem leftBefore_zero : leftBefore segments 0 = segments := by
  unfold leftBefore
  rw [List.filter_eq_self.mpr (by simp), List.zipIdx_map_fst]

/-- What a selection returns, and when it returns.
SOURCE: level.rs:298-312, 353-367 -/
theorem selectForMerge_rounds (hsize : fileSizes segments < 2 ^ 64) {selected : List Sst.Segment}
    (h : Sst.selectForMerge segments targetSize = .ok selected) :
    ∃ rounds, rounds * segments.length ≤ Sst.highestNumber segments ∧
      fileSizes (leftBefore segments rounds) ≤ targetSize ∧
      selected = takenBefore segments rounds := by
  unfold Sst.selectForMerge at h
  rw [totalSize_ok hsize, exec_ok_bind] at h
  apply @selectLoop_rounds segments targetSize _ 0 selected (by simp)
  rwa [leftBefore_zero, Nat.zero_mul, Nat.sub_zero]

/-- INTERNAL: the selection returns if there are rounds enough.
SOURCE: level.rs:298-312 -/
theorem selectForMerge_returns (hsize : fileSizes segments < 2 ^ 64)
    (h : RoundsSuffice segments targetSize) :
    ∃ selected, Sst.selectForMerge segments targetSize = .ok selected := by
  unfold Sst.selectForMerge
  rw [totalSize_ok hsize, exec_ok_bind]
  obtain ⟨rounds, hrounds, hleft⟩ := h
  by_cases hne : segments = []
  · subst hne
    exact ⟨[], rfl⟩
  · have hfuel : rounds < Sst.highestNumber segments + 2 := by
      have hpos : 0 < segments.length := List.length_pos_iff.mpr hne
      have hle : rounds ≤ rounds * segments.length := Nat.le_mul_of_pos_right _ hpos
      omega
    have hloop := @selectLoop_returns segments targetSize rounds _ 0 hfuel
      (by rwa [Nat.zero_add]) (by rwa [Nat.zero_add])
    rwa [leftBefore_zero, Nat.zero_mul, Nat.sub_zero] at hloop

/-! ## When enough is chosen -/

/-- INTERNAL: a sum that was computed has not gone over the largest number.
SOURCE: level.rs:300 -/
theorem foldlM_size_lt {size size' : ℕ} (hsize : size < 2 ^ 64)
    (h : segments.foldlM (fun size segment => checkedAdd 64 size segment.size) size = .ok size') :
    size + fileSizes segments < 2 ^ 64 := by
  induction segments generalizing size with
  | nil => exact hsize
  | cons s segments ih =>
    rw [List.foldlM_cons] at h
    obtain ⟨sum, hsum, hrest⟩ := exec_bind_eq_ok.mp h
    unfold checkedAdd at hsum
    split at hsum
    · cases hsum
      rw [fileSizes_cons, ← Nat.add_assoc]
      exact ih ‹_› hrest
    · cases hsum

/-- INTERNAL: the sizes add up to a machine number if the selection returns. -/
theorem selectForMerge_size {selected : List Sst.Segment}
    (h : Sst.selectForMerge segments targetSize = .ok selected) : fileSizes segments < 2 ^ 64 := by
  obtain ⟨size, htotal, -⟩ := exec_bind_eq_ok.mp h
  have hlt := foldlM_size_lt (Nat.two_pow_pos 64) htotal
  rwa [Nat.zero_add] at hlt

/-- INTERNAL: only segments within the target are all left where they are.
SOURCE: level.rs:298-312, 353-367 -/
theorem selectForMerge_eq_nil_iff {selected : List Sst.Segment}
    (h : Sst.selectForMerge segments targetSize = .ok selected) :
    selected = [] ↔ fileSizes segments ≤ targetSize := by
  have hsize := selectForMerge_size h
  constructor
  · rintro rfl
    obtain ⟨rounds, -, hleft, htaken⟩ := selectForMerge_rounds hsize h
    by_cases hne : segments = []
    · rw [hne]
      exact Nat.zero_le _
    have hall : ∀ r ≤ rounds, fileSizes (leftBefore segments r) = fileSizes segments := by
      intro r hr
      induction r with
      | zero => rw [leftBefore_zero]
      | succ r ih =>
        have hnone : takenIn segments r = [] := by
          apply List.eq_nil_iff_forall_not_mem.mpr
          intro s hs
          have hmem : s ∈ takenBefore segments rounds :=
            List.mem_flatMap.mpr ⟨r, List.mem_range.mpr hr, hs⟩
          rw [← htaken] at hmem
          exact absurd hmem List.not_mem_nil
        have hsucc := leftBefore_succ hne r
        rw [hnone, ih (Nat.le_of_lt hr)] at hsucc
        rw [hsucc]
        exact (Nat.zero_add _).symm
    rw [← hall rounds (le_refl _)]
    exact hleft
  · intro hle
    exact Except.ok.inj (h.symm.trans (selectForMerge_within (totalSize_ok hsize) hle))

/-- INTERNAL: a segment stands at one place. -/
theorem place_unique (hnodup : segments.Nodup) {s : Sst.Segment} {j j' : ℕ}
    (h : (s, j) ∈ segments.zipIdx) (h' : (s, j') ∈ segments.zipIdx) : j = j' := by
  obtain ⟨hj, hs⟩ := List.getElem?_eq_some_iff.mp (List.mem_zipIdx_iff_getElem?.mp h)
  obtain ⟨hj', hs'⟩ := List.getElem?_eq_some_iff.mp (List.mem_zipIdx_iff_getElem?.mp h')
  exact (hnodup.getElem_inj_iff).mp (hs.trans hs'.symm)

/-- INTERNAL: what a round takes. -/
theorem mem_takenIn {round : ℕ} {s : Sst.Segment} :
    s ∈ takenIn segments round ↔ ∃ j, (s, j) ∈ segments.zipIdx ∧ TakenIn segments round (s, j) := by
  unfold takenIn
  rw [List.mem_map]
  constructor
  · rintro ⟨⟨t, j⟩, hplace, rfl⟩
    obtain ⟨hmem, htaken⟩ := List.mem_filter.mp hplace
    exact ⟨j, hmem, of_decide_eq_true htaken⟩
  · rintro ⟨j, hmem, htaken⟩
    exact ⟨(s, j), List.mem_filter.mpr ⟨hmem, decide_eq_true htaken⟩, rfl⟩

/-- INTERNAL: what the rounds take. -/
theorem mem_takenBefore {rounds : ℕ} {s : Sst.Segment} :
    s ∈ takenBefore segments rounds ↔
      ∃ r < rounds, ∃ j, (s, j) ∈ segments.zipIdx ∧ TakenIn segments r (s, j) := by
  unfold takenBefore
  rw [List.mem_flatMap]
  constructor
  · rintro ⟨r, hr, hs⟩
    exact ⟨r, List.mem_range.mp hr, mem_takenIn.mp hs⟩
  · rintro ⟨r, hr, hs⟩
    exact ⟨r, List.mem_range.mpr hr, mem_takenIn.mpr hs⟩

/-- INTERNAL: what the rounds leave is what they do not take. -/
theorem leftBefore_eq (hnodup : segments.Nodup) (rounds : ℕ) :
    leftBefore segments rounds = segments.filter (· ∉ takenBefore segments rounds) := by
  have hplaces : segments.filter (· ∉ takenBefore segments rounds) =
      (segments.zipIdx.map Prod.fst).filter (· ∉ takenBefore segments rounds) := by
    rw [List.zipIdx_map_fst]
  rw [hplaces, List.filter_map]
  unfold leftBefore
  congr 1
  apply List.filter_congr
  rintro ⟨s, j⟩ hplace
  apply decide_eq_decide.mpr
  rw [mem_takenBefore]
  constructor
  · rintro hleft ⟨r, hr, j', hplace', htaken⟩
    cases place_unique hnodup hplace hplace'
    exact hleft r hr htaken
  · intro hnot r hr htaken
    exact hnot ⟨r, hr, j, hplace, htaken⟩

/-- INTERNAL: no segment is taken twice. -/
theorem takenBefore_nodup (hnodup : segments.Nodup) (rounds : ℕ) :
    (takenBefore segments rounds).Nodup := by
  have htaken : ∀ r, (takenIn segments r).Nodup := by
    intro r
    have hsub : (takenIn segments r).Sublist (segments.zipIdx.map Prod.fst) :=
      List.filter_sublist.map Prod.fst
    rw [List.zipIdx_map_fst] at hsub
    exact hnodup.sublist hsub
  apply List.nodup_flatMap.mpr ⟨fun r _ => htaken r, ?_⟩
  apply List.nodup_range.imp
  intro r r' hne s hs hs'
  obtain ⟨j, hplace, hmet⟩ := mem_takenIn.mp hs
  obtain ⟨j', hplace', hmet'⟩ := mem_takenIn.mp hs'
  cases place_unique hnodup hplace hplace'
  have hsome : segments ≠ [] := by
    rintro rfl
    cases hplace
  exact hne (takenIn_unique hsome hmet hmet')

/-- INTERNAL: the selection of both levels. -/
theorem selectForMerge_enough_iff (hnumbers : (segments.map Sst.Segment.number).Nodup) :
    ChoosesEnough (Sst.selectForMerge segments targetSize) segments targetSize ↔
      fileSizes segments < 2 ^ 64 ∧ RoundsSuffice segments targetSize := by
  have hnodup : segments.Nodup := hnumbers.of_map
  constructor
  · rintro ⟨selected, hselect, -⟩
    have hsize := selectForMerge_size hselect
    obtain ⟨rounds, hrounds, hleft, -⟩ := selectForMerge_rounds hsize hselect
    exact ⟨hsize, rounds, hrounds, hleft⟩
  · rintro ⟨hsize, hsuffice⟩
    obtain ⟨selected, hselect⟩ := selectForMerge_returns hsize hsuffice
    obtain ⟨rounds, hrounds, hleft, rfl⟩ := selectForMerge_rounds hsize hselect
    refine ⟨_, hselect, selectForMerge_subset hselect, takenBefore_nodup hnodup rounds, ?_⟩
    rwa [← leftBefore_eq hnodup]

/-- Segments with different numbers are selected until no more than the target is left exactly if
their sizes have a sum and the rounds that the highest number allows for suffice.
SOURCE: level.rs:298-312, 353-367 -/
theorem segmentsToMerge_enough_iff (hnumbers : (segments.map Sst.Segment.number).Nodup)
    (indexSparsityFactor levelNumber : ℕ) :
    (ChoosesEnough (Sst.OverlappingLevel.segmentsToMerge ⟨segments, targetSize⟩) segments
      targetSize ↔ fileSizes segments < 2 ^ 64 ∧ RoundsSuffice segments targetSize) ∧
    (ChoosesEnough (Sst.PartitionedLevel.segmentsToMerge
      ⟨segments, targetSize, indexSparsityFactor, levelNumber⟩) segments targetSize ↔
        fileSizes segments < 2 ^ 64 ∧ RoundsSuffice segments targetSize) :=
  ⟨selectForMerge_enough_iff hnumbers, selectForMerge_enough_iff hnumbers⟩

/-- The same flushes with the newer one first. -/
theorem segmentsToMerge_enough_newest_first :
    ChoosesEnough (Sst.OverlappingLevel.segmentsToMerge
        ⟨[oneKey 0 2 "a" 2, oneKey 0 1 "b" 1], 0⟩) [oneKey 0 2 "a" 2, oneKey 0 1 "b" 1] 0 ↔
      fileSizes [oneKey 0 2 "a" 2, oneKey 0 1 "b" 1] < 2 ^ 64 ∧
        RoundsSuffice [oneKey 0 2 "a" 2, oneKey 0 1 "b" 1] 0 :=
  (@segmentsToMerge_enough_iff [oneKey 0 2 "a" 2, oneKey 0 1 "b" 1] 0 (by decide) 1 1).1

/-- Two flushes, the older one first, that a merge of all of level zero has to take.
SOURCE: level.rs:298-312 -/
theorem selection_underflow : ¬∀ (segments : List Sst.Segment) (targetSize : ℕ),
    (segments.map Sst.Segment.number).Nodup → (∀ s ∈ segments, 0 < s.size) →
      ChoosesEnough (Sst.OverlappingLevel.segmentsToMerge ⟨segments, targetSize⟩) segments
        targetSize := by
  intro h
  obtain ⟨selected, hselect, -⟩ := h [oneKey 0 1 "a" 1, oneKey 0 2 "b" 2] 0
    (by decide) (by decide)
  have hpanic : Sst.OverlappingLevel.segmentsToMerge
      ⟨[oneKey 0 1 "a" 1, oneKey 0 2 "b" 2], 0⟩ = .error .panic := by decide
  cases hselect.symm.trans hpanic

end Rkvs.Analysis

import Rkvs.Analysis.MergeRound

/-!
# The merge of read buffers

The rounds go up the first keys of the buffers, and each buffer is taken once: what it gives up is
what it holds before it is overtaken. A round with several buffers ends only if all their keys up to
the smallest last one belong to it.
-/

set_option autoImplicit false

namespace Rkvs.Analysis

open Rkvs.Library Rkvs.Model Rkvs.Interface

/-! ## The entries that are given up -/

section
variable {lists : List (List SsTableEntry)} {m : String} {entries : List SsTableEntry}

/-- INTERNAL: what a merge up to `m` takes of a list. -/
def givenOf (lists : List (List SsTableEntry)) (m : String) (entries : List SsTableEntry) :
    List SsTableEntry :=
  entries.filter fun e => GivenUp lists m entries e

/-- INTERNAL: the entries that are given up. -/
theorem mem_givenOf {e : SsTableEntry} :
    e ∈ givenOf lists m entries ↔ e ∈ entries ∧ GivenUp lists m entries e := by
  unfold givenOf
  rw [List.mem_filter, decide_eq_true_eq]

/-- INTERNAL: the entries that are left. -/
theorem mem_leftOf {e : SsTableEntry} :
    e ∈ leftOf lists m entries ↔ e ∈ entries ∧ ¬GivenUp lists m entries e := by
  unfold leftOf
  rw [List.mem_filter, decide_eq_true_eq]

/-- INTERNAL: everything is left if nothing is given up. -/
theorem leftOf_of_none (h : ∀ e ∈ entries, ¬GivenUp lists m entries e) :
    leftOf lists m entries = entries :=
  List.filter_eq_self.mpr fun e he => decide_eq_true (h e he)

/-- INTERNAL: a check for what is given up. -/
theorem leftOf_eq_filter {p : SsTableEntry → Bool}
    (h : ∀ e ∈ entries, p e = true ↔ GivenUp lists m entries e) :
    leftOf lists m entries = entries.filter fun e => !p e := by
  apply List.filter_congr
  intro e he
  rw [decide_not, ← Bool.eq_iff_iff.mpr ((h e he).trans decide_eq_true_iff.symm)]

end

section
variable {start : List Sst.SegmentReadBuf} {m : String} {order : Sst.IterationOrder}
  {E E' : ℕ → List SsTableEntry} {s s' : Sst.Merging} {c : String}

/-- INTERNAL: the entries of a buffer. -/
theorem entriesAt_eq {bufs : List Sst.SegmentReadBuf} {i : ℕ} {b : Sst.SegmentReadBuf}
    (h : bufs[i]? = some b) : entriesAt bufs i = b.buf := by
  unfold entriesAt
  rw [h]
  rfl

/-- INTERNAL: no entries where there is no buffer. -/
theorem entriesAt_outside {bufs : List Sst.SegmentReadBuf} {i : ℕ} (h : bufs.length ≤ i) :
    entriesAt bufs i = [] := by
  unfold entriesAt
  rw [List.getElem?_eq_none h]
  rfl

/-- INTERNAL: what one of the buffers holds. -/
theorem held_getElem? (bufs : List Sst.SegmentReadBuf) (i : ℕ) {entries : List SsTableEntry} :
    (held bufs)[i]? = some entries ↔ i < bufs.length ∧ entriesAt bufs i = entries := by
  unfold held
  rw [List.getElem?_map, Option.map_eq_some_iff]
  constructor
  · rintro ⟨b, hb, rfl⟩
    exact ⟨(List.getElem?_eq_some_iff.mp hb).1, entriesAt_eq hb⟩
  · rintro ⟨hi, rfl⟩
    exact ⟨bufs[i], List.getElem?_eq_getElem hi, (entriesAt_eq (List.getElem?_eq_getElem hi)).symm⟩

/-- INTERNAL: there is a buffer where there is a first key. -/
theorem inside_of_head {bufs : List Sst.SegmentReadBuf} {i : ℕ} {k : String}
    (h : headKey (entriesAt bufs i) = some k) : i < bufs.length := by
  by_contra hge
  rw [entriesAt_outside (not_lt.mp hge)] at h
  cases h

/-- INTERNAL: a buffer is overtaken by another one. -/
theorem overtaken_iff {i : ℕ} {k key : String} (hk : headKey (entriesAt start i) = some k) :
    Overtaken (held start) (entriesAt start i) key ↔
      ∃ j k', headKey (entriesAt start j) = some k' ∧ k < k' ∧ k' ≤ key := by
  constructor
  · rintro ⟨k₀, hk₀, others, hmem, k', hk', hlt, hle⟩
    rw [Option.mem_def, hk] at hk₀
    cases hk₀
    obtain ⟨b, hb, rfl⟩ := List.mem_map.mp hmem
    obtain ⟨j, hj, rfl⟩ := List.mem_iff_getElem.mp hb
    exact ⟨j, k', by rwa [entriesAt_eq (List.getElem?_eq_getElem hj)], hlt, hle⟩
  · rintro ⟨j, k', hk', hlt, hle⟩
    have hj := inside_of_head hk'
    exact ⟨k, hk, entriesAt start j, List.mem_of_getElem? ((held_getElem? start j).mpr ⟨hj, rfl⟩),
      k', hk', hlt, hle⟩

/-- INTERNAL: a round takes what the buffers of its group give up. -/
theorem inRound_iff (h : Ready start m (entriesAt start) E s c) {i : ℕ} (hi : i ∈ s.currIndices)
    (e : SsTableEntry) :
    Sst.inRound m (nextKeyAt (entriesAt start) s.nextIndices) e.key ↔
      GivenUp (held start) m (entriesAt start i) e := by
  have hkey := (h.curr i).mp hi
  unfold GivenUp
  rw [overtaken_iff hkey]
  cases hk : nextKeyAt (entriesAt start) s.nextIndices with
  | none =>
    rw [inRound_of_none]
    refine ⟨fun hle => ⟨hle, ?_⟩, fun hgiven => hgiven.1⟩
    rintro ⟨j, k', hk', hlt, hle'⟩
    have hsmall := (nextGroup_none h.next hk).2 j ⟨k', hk', hlt.le, hle'.trans hle⟩ k' hk'
    exact absurd hlt (not_lt.mpr hsmall)
  | some k =>
    have hgroup := nextGroup_some h.next hk
    rw [inRound_of_some]
    constructor
    · intro hlt
      refine ⟨hlt.le.trans (next_le h hk), ?_⟩
      rintro ⟨j, k', hk', hck', hle⟩
      obtain hsmall | hlarge := hgroup.least j ⟨k', hk', hck'.le, hle.trans
        (hlt.le.trans (next_le h hk))⟩ k' hk'
      · exact absurd hck' (not_lt.mpr hsmall)
      · exact absurd (hlarge.trans hle) (not_le.mpr hlt)
    · rintro ⟨-, hnot⟩
      obtain ⟨j, hj⟩ := List.exists_mem_of_ne_nil _ hgroup.nonempty
      by_contra hge
      exact hnot ⟨j, k, ((hgroup.members j).mp hj).2, hgroup.above, not_lt.mp hge⟩

/-! ## What the loop has merged -/

/-- INTERNAL: some buffers have given up their entries, which were merged, and their keys are those
for which `p` holds. -/
def MergedSoFar (start : List Sst.SegmentReadBuf) (m : String) (E : ℕ → List SsTableEntry)
    (res : List SsTableEntry) (p : String → Prop) : Prop :=
  ∃ popped, Popped (entriesAt start) E popped res ∧
    ∀ i, ∀ e ∈ popped i, GivenUp (held start) m (entriesAt start i) e ∧ p e.key

/-- INTERNAL: the buffers that begin below `c` have given up what they give up, and the others are as
they were. -/
structure UpTo (start : List Sst.SegmentReadBuf) (m : String) (E : ℕ → List SsTableEntry)
    (s : Sst.Merging) (c : String) : Prop where
  ready : Ready start m (entriesAt start) E s c
  before : ∀ i k, headKey (entriesAt start i) = some k → k < c →
    E i = leftOf (held start) m (entriesAt start i)
  after : ∀ i, (∀ k, headKey (entriesAt start i) = some k → c ≤ k) → E i = entriesAt start i
  merged : MergedSoFar start m E s.res (· < c)

/-- INTERNAL: a scan that has begun has references. -/
theorem upTo_nonempty (h : UpTo start m E s c) : s.readBufs.isEmpty = false := by
  obtain ⟨i, hi⟩ := List.exists_mem_of_ne_nil _ h.ready.nonempty
  have hpresent := (h.ready.members i).mpr (due_curr h.ready hi)
  rw [List.isEmpty_eq_false_iff]
  rintro hnil
  rw [hnil] at hpresent
  exact absurd hpresent List.not_mem_nil

/-- INTERNAL: the buffers of the map are ascending. -/
theorem upTo_ascending (hasc : ∀ i, Ascending (entriesAt start i)) (h : UpTo start m E s c)
    (i : ℕ) : Ascending (E i) := by
  obtain ⟨popped, htaken, -⟩ := h.merged
  exact popped_ascending htaken (hasc i)

/-- INTERNAL: a round takes more. -/
theorem mergedSoFar_round {popped : ℕ → List SsTableEntry} {merged : List SsTableEntry}
    (h : UpTo start m E s c) (hasc : ∀ i, Ascending (entriesAt start i))
    (hdone : RoundDone start m (entriesAt start) E E' popped merged s s') {p : String → Prop}
    (hp : ∀ key, key < c ∨ Sst.inRound m (nextKeyAt (entriesAt start) s.nextIndices) key → p key) :
    MergedSoFar start m E' s'.res p := by
  obtain ⟨before, htaken, hbefore⟩ := h.merged
  have hround : ∀ i, ∀ e ∈ popped i, i ∈ s.currIndices ∧ e ∈ entriesAt start i ∧
      Sst.inRound m (nextKeyAt (entriesAt start) s.nextIndices) e.key := by
    intro i e he
    by_cases hi : i ∈ s.currIndices
    · rw [hdone.given i hi, List.mem_filter] at he
      exact ⟨hi, he⟩
    · rw [(hdone.others i hi).1] at he
      exact absurd he List.not_mem_nil
  rw [hdone.res]
  refine ⟨_, htaken.append hdone.taken (fun i e he j f hf => ?_), fun i e he => ?_⟩
  · obtain ⟨hj, hf, -⟩ := hround j f hf
    obtain ⟨front, hfront, hkey⟩ := headKey_eq_some.mp ((h.ready.curr j).mp hj)
    exact (hbefore i e he).2.trans_le (hkey ▸ head_le (hasc j) hfront hf)
  · obtain he | he := List.mem_append.mp he
    · exact ⟨(hbefore i e he).1, hp e.key (Or.inl (hbefore i e he).2)⟩
    · obtain ⟨hi, -, hin⟩ := hround i e he
      exact ⟨(inRound_iff h.ready hi e).mp hin, hp e.key (Or.inr hin)⟩

/-- INTERNAL: what a round leaves of the buffers of its group. -/
theorem left_of_round {popped : ℕ → List SsTableEntry} {merged : List SsTableEntry}
    (h : UpTo start m E s c)
    (hdone : RoundDone start m (entriesAt start) E E' popped merged s s') {i : ℕ}
    (hi : i ∈ s.currIndices) : E' i = leftOf (held start) m (entriesAt start i) := by
  rw [hdone.left i hi]
  exact (leftOf_eq_filter fun e _ => inRound_iff h.ready hi e).symm

/-- INTERNAL: after a round the buffers that begin up to `c` have given up what they give up. -/
theorem before_round {popped : ℕ → List SsTableEntry} {merged : List SsTableEntry}
    (h : UpTo start m E s c)
    (hdone : RoundDone start m (entriesAt start) E E' popped merged s s') {i : ℕ} {k : String}
    (hkey : headKey (entriesAt start i) = some k) (hle : k ≤ c) :
    E' i = leftOf (held start) m (entriesAt start i) := by
  by_cases hi : i ∈ s.currIndices
  · exact left_of_round h hdone hi
  · rw [(hdone.others i hi).2]
    apply h.before i k hkey
    apply lt_of_le_of_ne hle
    rintro rfl
    exact hi ((h.ready.curr i).mpr hkey)

/-- INTERNAL: and those that begin above are as they were. -/
theorem after_round {popped : ℕ → List SsTableEntry} {merged : List SsTableEntry}
    (h : UpTo start m E s c)
    (hdone : RoundDone start m (entriesAt start) E E' popped merged s s') {i : ℕ}
    (habove : ∀ k, headKey (entriesAt start i) = some k → c < k) : E' i = entriesAt start i := by
  have hi : i ∉ s.currIndices := fun hi => lt_irrefl c (habove c ((h.ready.curr i).mp hi))
  rw [(hdone.others i hi).2]
  exact h.after i fun k hk => (habove k hk).le

/-- INTERNAL: a round with a next group leads to the next state of the loop. -/
theorem upTo_round {popped : ℕ → List SsTableEntry} {merged : List SsTableEntry}
    (h : UpTo start m E s c) (hasc : ∀ i, Ascending (entriesAt start i))
    (hdone : RoundDone start m (entriesAt start) E E' popped merged s s') {k : String}
    (hk : nextKeyAt (entriesAt start) s.nextIndices = some k) : UpTo start m E' s' k := by
  have hgroup := nextGroup_some h.ready.next hk
  refine ⟨hdone.ready k hk, fun i k₀ hkey hlt => ?_, fun i habove => ?_,
    mergedSoFar_round h hasc hdone ?_⟩
  · apply before_round h hdone hkey
    by_contra hgt
    obtain hsmall | hlarge := hgroup.least i
      ⟨k₀, hkey, (not_le.mp hgt).le, hlt.le.trans (next_le h.ready hk)⟩ k₀ hkey
    · exact hgt hsmall
    · exact absurd hlt (not_lt.mpr hlarge)
  · exact after_round h hdone fun k₀ hkey => hgroup.above.trans_le (habove k₀ hkey)
  · rintro key (hlt | hin)
    · exact hlt.trans hgroup.above
    · rwa [hk, inRound_of_some] at hin

/-- INTERNAL: a list that begins above `m` gives up nothing. -/
theorem not_givenUp_of_above {entries : List SsTableEntry} (hasc : Ascending entries)
    (h : ∀ k, headKey entries = some k → m < k) {lists : List (List SsTableEntry)} :
    ∀ e ∈ entries, ¬GivenUp lists m entries e := by
  rintro e he ⟨hle, -⟩
  obtain ⟨f, rest, rfl⟩ := List.exists_cons_of_ne_nil (List.ne_nil_of_mem he)
  exact absurd hle (not_le.mpr ((h f.key rfl).trans_le (head_le hasc rfl he)))

/-- INTERNAL: after a round without a next group all is done. -/
theorem left_last {popped : ℕ → List SsTableEntry} {merged : List SsTableEntry}
    (h : UpTo start m E s c) (hasc : ∀ i, Ascending (entriesAt start i))
    (hdone : RoundDone start m (entriesAt start) E E' popped merged s s')
    (hk : nextKeyAt (entriesAt start) s.nextIndices = none) :
    E' = fun i => leftOf (held start) m (entriesAt start i) := by
  funext i
  by_cases hle : ∃ k, headKey (entriesAt start i) = some k ∧ k ≤ c
  · obtain ⟨k, hkey, hkc⟩ := hle
    exact before_round h hdone hkey hkc
  · have habove : ∀ k, headKey (entriesAt start i) = some k → c < k := fun k hkey =>
      lt_of_not_ge fun hkc => hle ⟨k, hkey, hkc⟩
    rw [after_round h hdone habove]
    refine (leftOf_of_none (not_givenUp_of_above (hasc i) fun k hkey => ?_)).symm
    by_contra hkm
    have hsmall := (nextGroup_none h.ready.next hk).2 i
      ⟨k, hkey, (habove k hkey).le, not_lt.mp hkm⟩ k hkey
    exact absurd (habove k hkey) (not_lt.mpr hsmall)

/-! ## When the loop returns -/

/-- INTERNAL: the buffers that begin from `c` on with the same key as another one are done with in
time. -/
def SharedFrom (start : List Sst.SegmentReadBuf) (m c : String) : Prop :=
  ∀ i j k, i ≠ j → headKey (entriesAt start i) = some k → headKey (entriesAt start j) = some k →
    c ≤ k → k ≤ m → DoneInTime (held start) m (entriesAt start i)

/-- INTERNAL: two different buffers of a group. -/
theorem one_lt_of_two {C : List ℕ} {i j : ℕ} (hi : i ∈ C) (hj : j ∈ C) (hne : i ≠ j) :
    1 < C.length := by
  by_contra hle
  obtain ⟨a, rfl⟩ := List.length_eq_one_iff.mp
    (le_antisymm (not_lt.mp hle) (List.length_pos_of_mem hi))
  rw [List.mem_singleton] at hi hj
  exact hne (hi.trans hj.symm)

/-- INTERNAL: a group of several buffers has another one. -/
theorem exists_other {C : List ℕ} (hnodup : C.Nodup) (h : 1 < C.length) (i : ℕ) :
    ∃ j ∈ C, i ≠ j := by
  match C, hnodup, h with
  | a :: b :: C, hnodup, _ =>
    by_cases ha : i = a
    · refine ⟨b, List.mem_cons_of_mem _ (List.mem_cons_self ..), ?_⟩
      rintro rfl
      exact (List.nodup_cons.mp hnodup).1 (ha ▸ List.mem_cons_self ..)
    · exact ⟨a, List.mem_cons_self .., ha⟩

/-- INTERNAL: of the buffers of a round that returns several are done with in time. -/
theorem doneInTime_of_round {popped : ℕ → List SsTableEntry} {merged : List SsTableEntry}
    (h : UpTo start m E s c)
    (hdone : RoundDone start m (entriesAt start) E E' popped merged s s') {i j : ℕ} (hne : i ≠ j)
    (hi : i ∈ s.currIndices) (hj : j ∈ s.currIndices) :
    DoneInTime (held start) m (entriesAt start i) := by
  intro e he hle
  have hin := hdone.several (one_lt_of_two hi hj hne) i hi e he hle
  exact ((inRound_iff h.ready hi e).mp hin).2

/-- INTERNAL: a round with a next group, and all that follow. -/
theorem sharedFrom_round {popped : ℕ → List SsTableEntry} {merged : List SsTableEntry}
    (h : UpTo start m E s c)
    (hdone : RoundDone start m (entriesAt start) E E' popped merged s s')
    (hrest : ∀ k, nextKeyAt (entriesAt start) s.nextIndices = some k → SharedFrom start m k) :
    SharedFrom start m c := by
  intro i j k hne hi hj hck hkm
  by_cases hsame : k = c
  · subst hsame
    exact doneInTime_of_round h hdone hne ((h.ready.curr i).mpr hi) ((h.ready.curr j).mpr hj)
  · have hlt := lt_of_le_of_ne hck (Ne.symm hsame)
    cases hk : nextKeyAt (entriesAt start) s.nextIndices with
    | none =>
      have hsmall := (nextGroup_none h.ready.next hk).2 i ⟨k, hi, hck, hkm⟩ k hi
      exact absurd hlt (not_lt.mpr hsmall)
    | some k' =>
      obtain hsmall | hlarge := (nextGroup_some h.ready.next hk).least i ⟨k, hi, hck, hkm⟩ k hi
      · exact absurd hlt (not_lt.mpr hsmall)
      · exact hrest k' hk i j k hne hi hj hlarge hkm

/-- INTERNAL: what a loop that returns has merged and left, by induction on the rounds.
SOURCE: level.rs:620-745 -/
theorem mergeLoop_eq_ok (hasc : ∀ i, Ascending (entriesAt start i)) {limit fuel round : ℕ}
    (h : UpTo start m E s c) {out : List SsTableEntry} {bufs' : List Sst.SegmentReadBuf}
    (hrun : (Sst.mergeLoop order m limit fuel round s).run (bufsWith start E) = .ok out bufs') :
    bufs' = bufsWith start (fun i => leftOf (held start) m (entriesAt start i)) ∧
      MergedSoFar start m (fun i => leftOf (held start) m (entriesAt start i)) out (· ≤ m) ∧
      SharedFrom start m c := by
  induction fuel generalizing round s E c with
  | zero => cases hrun
  | succ fuel ih =>
    rw [Sst.mergeLoop, upTo_nonempty h] at hrun
    obtain ⟨s', mid, hround, hrest⟩ := run_bind_eq_ok hrun
    obtain ⟨E', popped, merged, rfl, hdone⟩ := mergeRound_eq_ok h.ready (upTo_ascending hasc h) hround
    cases hk : nextKeyAt (entriesAt start) s.nextIndices with
    | none =>
      have hmerged : MergedSoFar start m E' s'.res (· ≤ m) := by
        apply mergedSoFar_round h hasc hdone
        rintro key (hlt | hin)
        · exact hlt.le.trans h.ready.le
        · rwa [hk, inRound_of_none] at hin
      have hshared : SharedFrom start m c := by
        apply sharedFrom_round h hdone
        intro k hk'
        rw [hk] at hk'
        cases hk'
      cases fuel with
      | zero => cases hrest
      | succ fuel =>
        rw [Sst.mergeLoop, hdone.last hk] at hrest
        cases hrest
        rw [← left_last h hasc hdone hk]
        exact ⟨rfl, hmerged, hshared⟩
    | some k =>
      obtain ⟨hbufs, hmerged, hshared⟩ := ih (upTo_round h hasc hdone hk) hrest
      refine ⟨hbufs, hmerged, sharedFrom_round h hdone fun k' hk' => ?_⟩
      rw [hk] at hk'
      cases hk'
      exact hshared

/-- INTERNAL: a round takes an entry. -/
theorem entryCount_round {popped : ℕ → List SsTableEntry} {merged : List SsTableEntry}
    (h : UpTo start m E s c)
    (hdone : RoundDone start m (entriesAt start) E E' popped merged s s') :
    entryCount start E' < entryCount start E := by
  have hlength : ∀ i, (E i).length = (popped i).length + (E' i).length := by
    intro i
    rw [hdone.taken.split i, List.length_append]
  obtain ⟨i, hi⟩ := List.exists_mem_of_ne_nil _ h.ready.nonempty
  obtain ⟨e, he, hkey⟩ := headKey_eq_some.mp ((h.ready.curr i).mp hi)
  have hmem : e ∈ popped i := by
    rw [hdone.given i hi]
    exact List.mem_filter.mpr ⟨List.mem_of_mem_head? he, hkey ▸ currKey_inRound h.ready⟩
  unfold entryCount
  apply Finset.sum_lt_sum
  · intro j _
    rw [hlength j]
    exact Nat.le_add_left ..
  · refine ⟨i, Finset.mem_range.mpr (ready_inside h.ready hi), ?_⟩
    rw [hlength i]
    exact Nat.lt_add_of_pos_left (List.length_pos_of_mem hmem)

/-- INTERNAL: a loop returns if the buffers that share a first key are done with in time, by
induction on the rounds.
SOURCE: level.rs:620-745 -/
theorem mergeLoop_returns (hasc : ∀ i, Ascending (entriesAt start i)) {limit fuel round : ℕ}
    (h : UpTo start m E s c) (hshared : SharedFrom start m c)
    (hlimit : entryCount start E < limit) (hfuel : entryCount start E < fuel) :
    ∃ out bufs',
      (Sst.mergeLoop order m limit fuel round s).run (bufsWith start E) = .ok out bufs' := by
  induction fuel generalizing round s E c with
  | zero => exact absurd hfuel (Nat.not_lt_zero _)
  | succ fuel ih =>
    have hround : 1 < s.currIndices.length → ∀ i ∈ s.currIndices, ∀ e ∈ E i, e.key ≤ m →
        Sst.inRound m (nextKeyAt (entriesAt start) s.nextIndices) e.key := by
      intro hseveral i hi e he hle
      obtain ⟨j, hj, hne⟩ := exists_other h.ready.nodup hseveral i
      rw [h.ready.same i (due_curr h.ready hi)] at he
      exact (inRound_iff h.ready hi e).mpr ⟨hle, hshared i j c hne ((h.ready.curr i).mp hi)
        ((h.ready.curr j).mp hj) (le_refl c) h.ready.le e he hle⟩
    obtain ⟨s', bufs', hrun⟩ := @mergeRound_returns start E m (entriesAt start) s c h.ready
      (upTo_ascending hasc h) order limit round hlimit hround
    obtain ⟨E', popped, merged, rfl, hdone⟩ := mergeRound_eq_ok h.ready (upTo_ascending hasc h) hrun
    have hfewer := entryCount_round h hdone
    rw [Sst.mergeLoop, upTo_nonempty h, if_neg Bool.false_ne_true, run_bind_ok hrun]
    cases hk : nextKeyAt (entriesAt start) s.nextIndices with
    | none =>
      obtain ⟨fuel, rfl⟩ := Nat.exists_eq_succ_of_ne_zero (Nat.ne_zero_of_lt
        (Nat.lt_of_lt_of_le hfewer (Nat.le_of_lt_succ hfuel)))
      rw [Sst.mergeLoop, hdone.last hk]
      exact ⟨s'.res, bufsWith start E', rfl⟩
    | some k =>
      have hck := (nextGroup_some h.ready.next hk).above
      exact ih (upTo_round h hasc hdone hk)
        (fun i j k' hne hi hj hkk' hkm => hshared i j k' hne hi hj (hck.le.trans hkk') hkm)
        (hfewer.trans hlimit) (Nat.lt_of_lt_of_le hfewer (Nat.le_of_lt_succ hfuel))

end

end Rkvs.Analysis

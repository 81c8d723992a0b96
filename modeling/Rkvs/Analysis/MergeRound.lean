import Rkvs.Analysis.ReadBuffers
import Rkvs.Interface.SstFiles

/-!
# One round of the merge

A round takes the buffers with the smallest first key out of the map, merges what of them belongs
to the round, and looks for the buffers with the next key. None of them goes back: a single buffer
was popped, and of several none has a key up to the smallest last one left. Every index of the map
refers to the buffer at its own place.
-/

set_option autoImplicit false

namespace Rkvs.Analysis

open Rkvs.Library Rkvs.Model Rkvs.Interface

/-! ## The map -/

/-- INTERNAL: the indices of a map. -/
def idxs (readBufs : Sst.ReadBufs) : List ℕ := readBufs.map Prod.fst

/-- INTERNAL: different indices refer to the buffers at their places. -/
structure Mapped (n : ℕ) (readBufs : Sst.ReadBufs) : Prop where
  same : ∀ r ∈ readBufs, r.1 = r.2
  nodup : (idxs readBufs).Nodup
  inside : ∀ i ∈ idxs readBufs, i < n

section
variable {n : ℕ} {readBufs : Sst.ReadBufs}

/-- INTERNAL: a reference to a buffer leads to it. -/
theorem lookup_of_mem (h : Mapped n readBufs) {i : ℕ} (hi : i ∈ idxs readBufs) :
    readBufs.lookup i = some i := by
  obtain ⟨same, -, -⟩ := h
  induction readBufs with
  | nil => exact absurd hi List.not_mem_nil
  | cons r readBufs ih =>
    obtain ⟨idx, place⟩ := r
    have hplace : idx = place := same _ (List.mem_cons_self ..)
    by_cases hidx : i = idx
    · subst hidx
      rw [List.lookup_cons_self, hplace]
    · have hne : (i == idx) = false := beq_eq_false_iff_ne.mpr hidx
      rw [List.lookup_cons, hne]
      apply ih ((List.mem_cons.mp hi).resolve_left hidx)
      exact fun r hr => same r (List.mem_cons_of_mem _ hr)

/-- INTERNAL: the buffers of the references that are kept. -/
theorem mem_idxs_filter {p : ℕ → Bool} {i : ℕ} :
    i ∈ idxs (readBufs.filter fun r => p r.1) ↔ i ∈ idxs readBufs ∧ p i := by
  unfold idxs
  simp only [List.mem_map, List.mem_filter]
  constructor
  · rintro ⟨r, ⟨hr, hp⟩, rfl⟩
    exact ⟨⟨r, hr, rfl⟩, hp⟩
  · rintro ⟨⟨r, hr, rfl⟩, hp⟩
    exact ⟨r, ⟨hr, hp⟩, rfl⟩

/-- INTERNAL: references that are kept are still to one buffer each. -/
theorem mapped_filter (h : Mapped n readBufs) (p : ℕ → Bool) :
    Mapped n (readBufs.filter fun r => p r.1) := by
  refine ⟨fun r hr => h.same r (List.mem_of_mem_filter hr), ?_, fun i hi => ?_⟩
  · exact h.nodup.sublist (List.filter_sublist.map Prod.fst)
  · exact h.inside i (mem_idxs_filter.mp hi).1

/-- INTERNAL: the buffers of indices of the map are taken.
SOURCE: level.rs:621-629 -/
theorem takeBufs_eq {indices : List ℕ} (hnodup : indices.Nodup) (h : Mapped n readBufs)
    (hsub : ∀ i ∈ indices, i ∈ idxs readBufs) :
    Sst.takeBufs indices readBufs = (indices, readBufs.filter fun r => r.1 ∉ indices) := by
  induction indices generalizing readBufs with
  | nil =>
    have hall : (readBufs.filter fun r => r.1 ∉ ([] : List ℕ)) = readBufs :=
      List.filter_eq_self.mpr fun r _ => decide_eq_true List.not_mem_nil
    rw [hall, Sst.takeBufs]
  | cons i indices ih =>
    obtain ⟨hi, hnodup⟩ := List.nodup_cons.mp hnodup
    have hrest := @ih (readBufs.remove i) hnodup (mapped_filter h fun j => j ≠ i) (by
      intro j hj
      refine (@mem_idxs_filter readBufs (fun k => k ≠ i) j).mpr
        ⟨hsub j (List.mem_cons_of_mem _ hj), decide_eq_true ?_⟩
      rintro rfl
      exact hi hj)
    rw [Sst.takeBufs, lookup_of_mem h (hsub i (List.mem_cons_self ..)), hrest]
    dsimp only
    unfold Sst.ReadBufs.remove
    rw [List.filter_filter]
    congr 1
    apply List.filter_congr
    intro r _
    rw [← Bool.decide_and]
    apply decide_eq_decide.mpr
    rw [List.mem_cons, not_or, and_comm]

end

/-! ## The steps of a round -/

section
variable {start : List Sst.SegmentReadBuf} {E : ℕ → List SsTableEntry} {m : String}
  {readBufs : Sst.ReadBufs}

/-- INTERNAL: the key of the next round. -/
def nextKeyAt (E : ℕ → List SsTableEntry) (next : List ℕ) : Option String :=
  next.head?.bind fun i => headKey (E i)

/-- INTERNAL: the key of the next group.
SOURCE: level.rs:630-636 -/
theorem nextKeyOf_eq {next : List ℕ} (h : Mapped start.length readBufs)
    (hsub : ∀ i ∈ next, i ∈ idxs readBufs) :
    Sst.nextKeyOf (bufsWith start E) readBufs next = .ok (nextKeyAt E next) := by
  cases next with
  | nil => rfl
  | cons i next =>
    have hi := hsub i (List.mem_cons_self ..)
    unfold Sst.nextKeyOf
    dsimp only [List.head?_cons]
    rw [lookup_of_mem h hi, unwrap_some, exec_ok_bind, frontAt_bufsWith (h.inside i hi)]
    rfl

/-- INTERNAL: the key at the front of a buffer. -/
theorem frontKey_eq {i : ℕ} {k : String} (h : Mapped start.length readBufs)
    (hi : i ∈ idxs readBufs) (hkey : headKey (E i) = some k) :
    readBufs.frontKey (bufsWith start E) i = .ok k := by
  obtain ⟨e, he, rfl⟩ := Option.map_eq_some_iff.mp hkey
  unfold Sst.ReadBufs.frontKey
  rw [lookup_of_mem h hi, unwrap_some, exec_ok_bind, frontAt_head (h.inside i hi) he, unwrap_some,
    exec_ok_bind]
  rfl

/-- INTERNAL: the buffer has an entry up to `m` in front. -/
def Ahead (E : ℕ → List SsTableEntry) (m : String) (i : ℕ) : Prop :=
  ∃ k, headKey (E i) = some k ∧ k ≤ m

/-- INTERNAL: buffers that have nothing up to `m` in front do not go back.
SOURCE: level.rs:706-717 -/
theorem putBack_nothing {currBufs : List ℕ}
    (h : ∀ i ∈ currBufs, i < start.length ∧ ¬Ahead E m i) (indices : List ℕ) (idx : ℕ) :
    Sst.putBack (bufsWith start E) m indices currBufs idx readBufs = .ok readBufs := by
  induction currBufs generalizing idx with
  | nil => rfl
  | cons i currBufs ih =>
    obtain ⟨⟨hi, hnot⟩, hrest⟩ := List.forall_mem_cons.mp h
    rw [Sst.putBack, frontAt_bufsWith hi]
    cases hhead : (E i).head? with
    | none => exact ih hrest (idx + 1)
    | some e =>
      have hlarge : ¬e.key ≤ m := fun hle => hnot ⟨e.key, headKey_eq_some.mpr ⟨e, hhead, rfl⟩, hle⟩
      dsimp only
      rw [if_neg hlarge]
      exact ih hrest (idx + 1)

/-! ## The next group -/

/-- INTERNAL: among some buffers these have the least first key `k'` above `c`. -/
structure LeastAbove (E : ℕ → List SsTableEntry) (present : ℕ → Prop) (c : String)
    (next : List ℕ) (k' : String) : Prop where
  above : c < k'
  nonempty : next ≠ []
  members : ∀ i, i ∈ next ↔ present i ∧ headKey (E i) = some k'
  least : ∀ i, present i → ∀ k, headKey (E i) = some k → k ≤ c ∨ k' ≤ k

/-- INTERNAL: the buffers with the least first key above `c`, if there is one. -/
def NextGroup (E : ℕ → List SsTableEntry) (present : ℕ → Prop) (c : String) (next : List ℕ) :
    Prop :=
  next.Nodup ∧ ((next = [] ∧ ∀ i, present i → ∀ k, headKey (E i) = some k → k ≤ c) ∨
    ∃ k', LeastAbove E present c next k')

/-- INTERNAL: what the search has found among the buffers it has looked at. -/
def Found (E : ℕ → List SsTableEntry) (present : ℕ → Prop) (m c : String) :
    Option String × List ℕ → Prop
  | (none, next) => next = [] ∧ ∀ i, present i → ∀ k, headKey (E i) = some k → k ≤ c
  | (some k', next) => next.Nodup ∧ k' ≤ m ∧ LeastAbove E present c next k'

/-- INTERNAL: one more buffer.
SOURCE: level.rs:725-742 -/
theorem nextStep_found {present : ℕ → Prop} {c k : String} {found : Option String × List ℕ}
    {i : ℕ} (hi : i < start.length) (hnew : ¬present i) (hkey : headKey (E i) = some k)
    (hle : k ≤ m) (h : Found E present m c found) :
    ∃ found', Sst.nextStep (bufsWith start E) m c found (i, i) = .ok found' ∧
      Found E (fun j => present j ∨ j = i) m c found' := by
  obtain ⟨e, he, rfl⟩ := Option.map_eq_some_iff.mp hkey
  obtain ⟨nextKey, next⟩ := found
  have hother : ∀ {P : ℕ → String → Prop},
      (∀ j, present j → ∀ k, headKey (E j) = some k → P j k) → P i e.key →
        ∀ j, present j ∨ j = i → ∀ k, headKey (E j) = some k → P j k := by
    rintro P hP hPi j (hj | rfl) k hk
    · exact hP j hj k hk
    · rw [hkey] at hk
      cases hk
      exact hPi
  -- the buffer becomes the only one of the group
  have hfirst : (∀ j, present j → ∀ k, headKey (E j) = some k → k ≤ c ∨ e.key < k) →
      c < e.key → Found E (fun j => present j ∨ j = i) m c (some e.key, [i]) := by
    intro hothers hlt
    refine ⟨List.nodup_singleton i, hle, hlt, List.cons_ne_nil i [], fun j => ?_, ?_⟩
    · rw [List.mem_singleton]
      constructor
      · rintro rfl
        exact ⟨Or.inr rfl, hkey⟩
      · rintro ⟨hj | hj, hk⟩
        · obtain h | h := hothers j hj e.key hk
          · exact absurd hlt (not_lt.mpr h)
          · exact absurd h (lt_irrefl _)
        · exact hj
    · refine @hother (fun _ k => k ≤ c ∨ e.key ≤ k) (fun j hj k hk => ?_) (Or.inr (le_refl _))
      exact (hothers j hj k hk).imp_right le_of_lt
  unfold Sst.nextStep
  rw [frontAt_head hi he, unwrap_some, exec_ok_bind]
  refine ⟨_, rfl, ?_⟩
  cases nextKey with
  | none =>
    obtain ⟨rfl, hnone⟩ := h
    by_cases hlt : c < e.key
    · simp only [decide_eq_true hlt, decide_eq_true hle, Bool.and_self, if_true, List.nil_append]
      exact hfirst (fun j hj k hk => Or.inl (hnone j hj k hk)) hlt
    · simp only [decide_eq_false hlt, Bool.false_and, Bool.false_eq_true, if_false]
      exact ⟨rfl, @hother (fun _ k => k ≤ c) hnone (not_lt.mp hlt)⟩
  | some k' =>
    obtain ⟨hnodup, hk'm, hgroup⟩ := h
    by_cases hlt : c < e.key
    · obtain hsmaller | rfl | hlarger := lt_trichotomy e.key k'
      · simp only [decide_eq_true hlt, decide_eq_true hsmaller, decide_eq_true hsmaller.le,
          Bool.and_self, if_true, List.nil_append]
        refine hfirst (fun j hj k hk => ?_) hlt
        exact (hgroup.least j hj k hk).imp_right hsmaller.trans_le
      · simp only [decide_eq_true hlt, lt_irrefl, decide_false, Bool.and_false, Bool.false_eq_true,
          if_false, le_refl, decide_true, Bool.and_true, if_true]
        have hmem : i ∉ next := fun hmem => hnew ((hgroup.members i).mp hmem).1
        refine ⟨?_, hk'm, hgroup.above, by simp, fun j => ?_, ?_⟩
        · exact List.nodup_append.mpr ⟨hnodup, List.nodup_singleton i, by
            rintro a ha b hb rfl
            exact hmem (List.mem_singleton.mp hb ▸ ha)⟩
        · rw [List.mem_append, List.mem_singleton, hgroup.members j]
          constructor
          · rintro (⟨hj, hk⟩ | rfl)
            · exact ⟨Or.inl hj, hk⟩
            · exact ⟨Or.inr rfl, hkey⟩
          · rintro ⟨hj | rfl, hk⟩
            · exact Or.inl ⟨hj, hk⟩
            · exact Or.inr rfl
        · exact @hother (fun _ k => k ≤ c ∨ e.key ≤ k) hgroup.least (Or.inr (le_refl _))
      · simp only [decide_eq_true hlt, decide_eq_false (not_lt.mpr hlarger.le),
          decide_eq_false (not_le.mpr hlarger), Bool.and_false, Bool.false_eq_true, if_false]
        refine ⟨hnodup, hk'm, hgroup.above, hgroup.nonempty, fun j => ?_,
          @hother (fun _ k => k ≤ c ∨ k' ≤ k) hgroup.least (Or.inr hlarger.le)⟩
        rw [hgroup.members j]
        constructor
        · rintro ⟨hj, hk⟩
          exact ⟨Or.inl hj, hk⟩
        · rintro ⟨hj | rfl, hk⟩
          · exact ⟨hj, hk⟩
          · rw [hkey] at hk
            cases hk
            exact absurd hlarger (lt_irrefl _)
    · simp only [decide_eq_false hlt, Bool.false_and, Bool.false_eq_true, if_false]
      refine ⟨hnodup, hk'm, hgroup.above, hgroup.nonempty, fun j => ?_,
        @hother (fun _ k => k ≤ c ∨ k' ≤ k) hgroup.least (Or.inl (not_lt.mp hlt))⟩
      rw [hgroup.members j]
      constructor
      · rintro ⟨hj, hk⟩
        exact ⟨Or.inl hj, hk⟩
      · rintro ⟨hj | rfl, hk⟩
        · exact ⟨hj, hk⟩
        · rw [hkey] at hk
          cases hk
          exact absurd hgroup.above hlt

/-- INTERNAL: the search over buffers that all have a key up to `m` in front.
SOURCE: level.rs:725-742 -/
theorem nextStep_fold {c : String} (entries : Sst.ReadBufs) (h : Mapped start.length entries)
    (hahead : ∀ i ∈ idxs entries, Ahead E m i) :
    ∃ found, entries.foldlM (Sst.nextStep (bufsWith start E) m c) (none, []) = .ok found ∧
      Found E (· ∈ idxs entries) m c found := by
  induction entries using List.reverseRecOn with
  | nil => exact ⟨(none, []), rfl, rfl, fun i hi => absurd hi List.not_mem_nil⟩
  | append_singleton entries r ih =>
    have hidxs : idxs (entries ++ [r]) = idxs entries ++ [r.1] := List.map_append
    have hlast : r.1 ∈ idxs (entries ++ [r]) := by
      rw [hidxs]
      exact List.mem_append_right _ (List.mem_singleton_self _)
    have hmem : ∀ j, j ∈ idxs (entries ++ [r]) ↔ j ∈ idxs entries ∨ j = r.1 := by
      intro j
      rw [hidxs, List.mem_append, List.mem_singleton]
    have hnodup := h.nodup
    rw [hidxs] at hnodup
    obtain ⟨found, hrun, hfound⟩ := ih
      ⟨fun q hq => h.same q (List.mem_append_left _ hq), (List.nodup_append.mp hnodup).1,
        fun i hi => h.inside i ((hmem i).mpr (Or.inl hi))⟩
      fun i hi => hahead i ((hmem i).mpr (Or.inl hi))
    have hnew : r.1 ∉ idxs entries := fun hin =>
      (List.nodup_append.mp hnodup).2.2 _ hin _ (List.mem_singleton_self _) rfl
    obtain ⟨k, hkey, hle⟩ := hahead r.1 hlast
    obtain ⟨found', hstep, hfound'⟩ :=
      nextStep_found (h.inside r.1 hlast) hnew hkey hle hfound
    have hsame : r = (r.1, r.1) :=
      Prod.ext rfl (h.same r (List.mem_append_right _ (List.mem_singleton_self _))).symm
    have hpresent : (fun j => j ∈ idxs entries ∨ j = r.1) = (· ∈ idxs (entries ++ [r])) :=
      funext fun j => propext (hmem j).symm
    refine ⟨found', ?_, hpresent ▸ hfound'⟩
    rw [List.foldlM_append, hrun, exec_ok_bind, List.foldlM_cons, hsame, hstep]
    rfl

/-- INTERNAL: the order of the references does not matter to the buffers. -/
theorem idxs_perm {entries : Sst.ReadBufs} (h : entries.Perm readBufs) :
    (idxs entries).Perm (idxs readBufs) := h.map Prod.fst

/-- INTERNAL: nor to each of them being referred to once. -/
theorem mapped_perm {n : ℕ} {entries : Sst.ReadBufs} (h : Mapped n readBufs)
    (hperm : entries.Perm readBufs) : Mapped n entries :=
  ⟨fun r hr => h.same r (hperm.mem_iff.mp hr), (idxs_perm hperm).nodup_iff.mpr h.nodup,
    fun i hi => h.inside i ((idxs_perm hperm).mem_iff.mp hi)⟩

/-- INTERNAL: the group of the next round but one, for every order of the map.
SOURCE: level.rs:719-744 -/
theorem findNext_ok (order : Sst.IterationOrder) (round : ℕ) (h : Mapped start.length readBufs)
    (hahead : ∀ i ∈ idxs readBufs, Ahead E m i) {curr : List ℕ}
    (hcurr : ∀ i ∈ curr, i ∈ idxs readBufs) :
    ∃ next, Sst.findNext order round (bufsWith start E) m readBufs curr = .ok next ∧
      (curr = [] → next = []) ∧ ∀ i c, curr.head? = some i → headKey (E i) = some c →
        NextGroup E (· ∈ idxs readBufs) c next := by
  cases curr with
  | nil => exact ⟨[], rfl, fun _ => rfl, fun i c hi => absurd hi (by simp)⟩
  | cons i curr =>
    have hi := hcurr i (List.mem_cons_self ..)
    obtain ⟨c, hkey, -⟩ := hahead i hi
    have hperm := order.perm round readBufs
    obtain ⟨found, hrun, hfound⟩ := @nextStep_fold start E m c _ (mapped_perm h hperm)
      fun j hj => hahead j ((idxs_perm hperm).mem_iff.mp hj)
    have hpresent : (· ∈ idxs (order.iter round readBufs)) = (· ∈ idxs readBufs) :=
      funext fun j => propext (idxs_perm hperm).mem_iff
    rw [hpresent] at hfound
    refine ⟨found.2, ?_, fun hnil => absurd hnil (List.cons_ne_nil _ _), ?_⟩
    · unfold Sst.findNext
      dsimp only [List.head?_cons]
      rw [frontKey_eq h hi hkey, exec_ok_bind, hrun]
      rfl
    · intro j c' hj hkey'
      cases hj
      rw [hkey] at hkey'
      cases hkey'
      obtain ⟨nextKey, next⟩ := found
      cases nextKey with
      | none =>
        obtain ⟨rfl, hnone⟩ := hfound
        exact ⟨List.nodup_nil, Or.inl ⟨rfl, hnone⟩⟩
      | some k' => exact ⟨hfound.1, Or.inr ⟨k', hfound.2.2⟩⟩

/-! ## The work of a round -/

/-- INTERNAL: a buffer that begins at `c` or above, up to `m`, is still to be taken. -/
def Due (E₀ : ℕ → List SsTableEntry) (m c : String) (i : ℕ) : Prop :=
  ∃ k, headKey (E₀ i) = some k ∧ c ≤ k ∧ k ≤ m

/-- INTERNAL: a state of the loop. The map has the buffers that are still to be taken, which are as
they were at first. The current group are those with the smallest first key. -/
structure Ready (start : List Sst.SegmentReadBuf) (m : String) (E₀ E : ℕ → List SsTableEntry)
    (s : Sst.Merging) (c : String) : Prop where
  mapped : Mapped start.length s.readBufs
  members : ∀ i, i ∈ idxs s.readBufs ↔ Due E₀ m c i
  same : ∀ i, Due E₀ m c i → E i = E₀ i
  nodup : s.currIndices.Nodup
  nonempty : s.currIndices ≠ []
  curr : ∀ i, i ∈ s.currIndices ↔ headKey (E₀ i) = some c
  le : c ≤ m
  next : NextGroup E₀ (Due E₀ m c) c s.nextIndices

/-- INTERNAL: the group at the least key above has this key. -/
theorem nextGroup_key {present : ℕ → Prop} {next : List ℕ} {c k' : String}
    (h : LeastAbove E present c next k') : nextKeyAt E next = some k' := by
  obtain ⟨i, next', rfl⟩ := List.exists_cons_of_ne_nil h.nonempty
  exact ((h.members i).mp (List.mem_cons_self ..)).2

/-- INTERNAL: a next group without a key is none at all. -/
theorem nextGroup_none {present : ℕ → Prop} {next : List ℕ} {c : String}
    (h : NextGroup E present c next) (hk : nextKeyAt E next = none) :
    next = [] ∧ ∀ i, present i → ∀ k, headKey (E i) = some k → k ≤ c := by
  obtain ⟨-, hnone | ⟨k', hgroup⟩⟩ := h
  · exact hnone
  · rw [nextGroup_key hgroup] at hk
    cases hk

/-- INTERNAL: a next group with a key is the one at the least key above. -/
theorem nextGroup_some {present : ℕ → Prop} {next : List ℕ} {c k : String}
    (h : NextGroup E present c next) (hk : nextKeyAt E next = some k) :
    LeastAbove E present c next k := by
  obtain ⟨-, ⟨rfl, -⟩ | ⟨k', hgroup⟩⟩ := h
  · cases hk
  · rw [nextGroup_key hgroup] at hk
    cases hk
    exact hgroup

/-- INTERNAL: only the first keys of the buffers matter for the next group. -/
theorem nextGroup_congr {E' : ℕ → List SsTableEntry} {present : ℕ → Prop} {next : List ℕ}
    {c : String} (hsame : ∀ i, present i → E i = E' i) (h : NextGroup E present c next) :
    NextGroup E' present c next := by
  obtain ⟨hnodup, ⟨hnil, hnone⟩ | ⟨k', hgroup⟩⟩ := h
  · refine ⟨hnodup, Or.inl ⟨hnil, fun i hi k hk => hnone i hi k ?_⟩⟩
    rw [hsame i hi, hk]
  · refine ⟨hnodup, Or.inr ⟨k', hgroup.above, hgroup.nonempty, fun i => ?_, fun i hi k hk =>
      hgroup.least i hi k ?_⟩⟩
    · rw [hgroup.members i]
      exact and_congr_right fun hi => by rw [hsame i hi]
    · rw [hsame i hi, hk]

variable {E₀ : ℕ → List SsTableEntry} {s : Sst.Merging} {c : String}

/-- INTERNAL: the buffers of the current group are due. -/
theorem due_curr (h : Ready start m E₀ E s c) {i : ℕ} (hi : i ∈ s.currIndices) : Due E₀ m c i :=
  ⟨c, (h.curr i).mp hi, le_refl c, h.le⟩

/-- INTERNAL: they are among the buffers. -/
theorem ready_inside (h : Ready start m E₀ E s c) {i : ℕ} (hi : i ∈ s.currIndices) :
    i < start.length := h.mapped.inside i ((h.members i).mpr (due_curr h hi))

/-- INTERNAL: they begin with the current key. -/
theorem currKey (h : Ready start m E₀ E s c) {i : ℕ} (hi : i ∈ s.currIndices) :
    headKey (E i) = some c := by
  rw [h.same i (due_curr h hi)]
  exact (h.curr i).mp hi

/-- INTERNAL: the group of the next round is due, and is not the current one. -/
theorem next_spec (h : Ready start m E₀ E s c) {i : ℕ} (hi : i ∈ s.nextIndices) :
    Due E₀ m c i ∧ i ∉ s.currIndices := by
  obtain ⟨-, ⟨hnil, -⟩ | ⟨k', hgroup⟩⟩ := h.next
  · rw [hnil] at hi
    exact absurd hi List.not_mem_nil
  · obtain ⟨hdue, hkey⟩ := (hgroup.members i).mp hi
    refine ⟨hdue, fun hcurr => ?_⟩
    rw [(h.curr i).mp hcurr] at hkey
    cases hkey
    exact lt_irrefl _ hgroup.above

/-- INTERNAL: the next key is looked for among buffers that are as they were at first. -/
theorem nextKeyAt_eq (h : Ready start m E₀ E s c) :
    nextKeyAt E s.nextIndices = nextKeyAt E₀ s.nextIndices := by
  cases hnext : s.nextIndices with
  | nil => rfl
  | cons i next =>
    have hi : i ∈ s.nextIndices := by
      rw [hnext]
      exact List.mem_cons_self ..
    show headKey (E i) = headKey (E₀ i)
    rw [h.same i (next_spec h hi).1]

/-- INTERNAL: the key of the next group is not above the smallest last key. -/
theorem next_le (h : Ready start m E₀ E s c) {k : String}
    (hk : nextKeyAt E₀ s.nextIndices = some k) : k ≤ m := by
  have hgroup := nextGroup_some h.next hk
  obtain ⟨i, hi⟩ := List.exists_mem_of_ne_nil _ hgroup.nonempty
  obtain ⟨⟨k', hkey, -, hle⟩, hsame⟩ := (hgroup.members i).mp hi
  rw [hkey] at hsame
  cases hsame
  exact hle

/-- INTERNAL: a round takes the keys below the next group. -/
theorem inRound_of_some {k key : String} : Sst.inRound m (some k) key = true ↔ key < k := by
  unfold Sst.inRound
  exact decide_eq_true_iff

/-- INTERNAL: the last round takes the keys up to the smallest last key. -/
theorem inRound_of_none {key : String} : Sst.inRound m none key = true ↔ key ≤ m := by
  unfold Sst.inRound
  exact decide_eq_true_iff

/-- INTERNAL: what comes before a key of the round belongs to it, too. -/
theorem inRound_of_le {nextKey : Option String} {key key' : String} (hle : key ≤ key')
    (h : Sst.inRound m nextKey key') : Sst.inRound m nextKey key := by
  cases nextKey with
  | none => exact inRound_of_none.mpr (hle.trans (inRound_of_none.mp h))
  | some k => exact inRound_of_some.mpr (hle.trans_lt (inRound_of_some.mp h))

/-- INTERNAL: no round takes a key above the smallest last key. -/
theorem le_of_inRound (h : Ready start m E₀ E s c) {key : String}
    (hin : Sst.inRound m (nextKeyAt E₀ s.nextIndices) key) : key ≤ m := by
  cases hk : nextKeyAt E₀ s.nextIndices with
  | none =>
    rw [hk] at hin
    exact inRound_of_none.mp hin
  | some k =>
    rw [hk] at hin
    exact (inRound_of_some.mp hin).le.trans (next_le h hk)

/-- INTERNAL: every round takes the current key. -/
theorem currKey_inRound (h : Ready start m E₀ E s c) :
    Sst.inRound m (nextKeyAt E₀ s.nextIndices) c := by
  cases hk : nextKeyAt E₀ s.nextIndices with
  | none => exact inRound_of_none.mpr h.le
  | some k => exact inRound_of_some.mpr (nextGroup_some h.next hk).above

/-- INTERNAL: how the work on the group of a round has stopped. -/
def Stopped (m : String) (nextKey : Option String) (C : List ℕ) (E' : ℕ → List SsTableEntry) :
    Prop :=
  (∃ i, C = [i] ∧ ∀ e, (E' i).head? = some e → ¬Sst.inRound m nextKey e.key) ∨
    (1 < C.length ∧ ∀ i ∈ C, ∀ e ∈ E' i, m < e.key)

/-- INTERNAL: a group of several buffers. -/
theorem mergeGroup_several {C : List ℕ} (h : ¬∃ i, C = [i]) (nextKey : Option String) (fuel : ℕ)
    (res : List SsTableEntry) :
    Sst.mergeGroup m nextKey C fuel res = (do
      let res ← Sst.mergeSeveral m nextKey C fuel res
      return (res, C)) := by
  match C, h with
  | [], _ => rfl
  | [i], h => exact absurd ⟨i, rfl⟩ h
  | _ :: _ :: _, _ => rfl

/-- INTERNAL: the work on the group of a round. Those of its buffers that could go back have nothing
up to `m` left.
SOURCE: level.rs:637-704 -/
theorem mergeGroup_eq_ok (h : Ready start m E₀ E s c) (hasc : ∀ i, Ascending (E i)) {fuel : ℕ}
    {res' : List SsTableEntry × List ℕ} {bufs' : List Sst.SegmentReadBuf}
    (hrun : (Sst.mergeGroup m (nextKeyAt E₀ s.nextIndices) s.currIndices fuel s.res).run
      (bufsWith start E) = .ok res' bufs') :
    ∃ E' popped merged, res'.1 = s.res ++ merged ∧ bufs' = bufsWith start E' ∧
      Worked m (nextKeyAt E₀ s.nextIndices) s.currIndices E E' popped merged ∧
      Stopped m (nextKeyAt E₀ s.nextIndices) s.currIndices E' ∧
      ∀ i ∈ res'.2, i < start.length ∧ ¬Ahead E' m i := by
  by_cases hsingle : ∃ i, s.currIndices = [i]
  · obtain ⟨i, hi⟩ := hsingle
    have hlt : i < start.length := ready_inside h (by rw [hi]; exact List.mem_singleton_self i)
    rw [hi] at hrun
    obtain ⟨res, mid, hdrain, hreturn⟩ := run_bind_eq_ok hrun
    cases hreturn
    obtain ⟨popped, left, hsplit, hres, hbufs, hround, hstop⟩ := drainRound_eq_ok hlt hdrain
    have hworked := worked_single (hasc i) hsplit hround
    rw [← hi] at hworked
    refine ⟨_, _, popped, hres, hbufs, hworked, Or.inl ⟨i, hi, fun e he => ?_⟩,
      fun j hj => absurd hj List.not_mem_nil⟩
    rw [Function.update_self] at he
    exact hstop e he
  · rw [mergeGroup_several hsingle] at hrun
    obtain ⟨res, mid, hsort, hreturn⟩ := run_bind_eq_ok hrun
    cases hreturn
    obtain ⟨E', popped, merged, hres, hbufs, hworked, hstop⟩ := mergeSeveral_eq_ok h.nodup
      (fun i hi => ready_inside h hi) h.nonempty (fun i hi => currKey h hi) (currKey_inRound h)
      (fun i _ => hasc i) hsort
    refine ⟨E', popped, merged, hres, hbufs, hworked,
      Or.inr ⟨one_lt_length h.nonempty hsingle, hstop⟩, fun i hi => ⟨ready_inside h hi, ?_⟩⟩
    rintro ⟨k, hkey, hle⟩
    obtain ⟨e, he, rfl⟩ := headKey_eq_some.mp hkey
    exact absurd hle (not_le.mpr (hstop i hi e (List.mem_of_mem_head? he)))

/-- INTERNAL: the work ends if of several buffers all keys up to `m` belong to the round. -/
theorem mergeGroup_returns (h : Ready start m E₀ E s c) {fuel : ℕ}
    (hfuel : entryCount start E < fuel)
    (hround : 1 < s.currIndices.length → ∀ i ∈ s.currIndices, ∀ e ∈ E i, e.key ≤ m →
      Sst.inRound m (nextKeyAt E₀ s.nextIndices) e.key) : ∃ res' bufs',
    (Sst.mergeGroup m (nextKeyAt E₀ s.nextIndices) s.currIndices fuel s.res).run
      (bufsWith start E) = .ok res' bufs' := by
  by_cases hsingle : ∃ i, s.currIndices = [i]
  · obtain ⟨i, hi⟩ := hsingle
    have hlt : i < start.length := ready_inside h (by rw [hi]; exact List.mem_singleton_self i)
    have hle : (E i).length ≤ entryCount start E :=
      Finset.single_le_sum (f := fun j => (E j).length) (fun _ _ => Nat.zero_le _)
        (Finset.mem_range.mpr hlt)
    obtain ⟨res', bufs', hrun⟩ := @drainRound_returns start m (nextKeyAt E₀ s.nextIndices) i fuel
      hlt E (hle.trans_lt hfuel) s.res
    rw [hi]
    exact ⟨(res', []), bufs', run_bind_ok hrun⟩
  · obtain ⟨res', bufs', hrun⟩ := mergeSeveral_returns h.nodup (fun i hi => ready_inside h hi)
      h.nonempty (fun i hi => currKey h hi) (hround (one_lt_length h.nonempty hsingle)) hfuel s.res
    rw [mergeGroup_several hsingle]
    exact ⟨(res', s.currIndices), bufs', run_bind_ok hrun⟩

/-! ## The whole round -/

/-- INTERNAL: a list is split into the entries for which `p` holds, and the others. -/
theorem split_eq_filter {entries popped left : List SsTableEntry} {p : SsTableEntry → Bool}
    (hsplit : entries = popped ++ left) (hpopped : ∀ e ∈ popped, p e) (hleft : ∀ e ∈ left, ¬p e) :
    popped = entries.filter p ∧ left = entries.filter fun e => !p e := by
  have hnone : left.filter p = [] := List.filter_eq_nil_iff.mpr hleft
  have hall : popped.filter p = popped := List.filter_eq_self.mpr hpopped
  have hnone' : (popped.filter fun e => !p e) = [] :=
    List.filter_eq_nil_iff.mpr fun e he => by simp [hpopped e he]
  have hall' : (left.filter fun e => !p e) = left :=
    List.filter_eq_self.mpr fun e he => by simpa using hleft e he
  rw [hsplit, List.filter_append, List.filter_append, hnone, hall, hnone', hall', List.append_nil,
    List.nil_append]
  exact ⟨rfl, rfl⟩

/-- INTERNAL: what a round does. The buffers of the group give up the entries that belong to the
round, and keep the others. -/
structure RoundDone (start : List Sst.SegmentReadBuf) (m : String)
    (E₀ E E' popped : ℕ → List SsTableEntry) (merged : List SsTableEntry)
    (s s' : Sst.Merging) : Prop where
  taken : Popped E E' popped merged
  given : ∀ i ∈ s.currIndices, popped i =
    (E₀ i).filter fun e => Sst.inRound m (nextKeyAt E₀ s.nextIndices) e.key
  left : ∀ i ∈ s.currIndices, E' i =
    (E₀ i).filter fun e => !Sst.inRound m (nextKeyAt E₀ s.nextIndices) e.key
  others : ∀ i ∉ s.currIndices, popped i = [] ∧ E' i = E i
  several : 1 < s.currIndices.length → ∀ i ∈ s.currIndices, ∀ e ∈ E₀ i, e.key ≤ m →
    Sst.inRound m (nextKeyAt E₀ s.nextIndices) e.key
  res : s'.res = s.res ++ merged
  last : nextKeyAt E₀ s.nextIndices = none → s'.readBufs = []
  ready : ∀ k, nextKeyAt E₀ s.nextIndices = some k → Ready start m E₀ E' s' k

/-- INTERNAL: where the work on the group stops nothing of the round is left. -/
theorem stopped_not_inRound (h : Ready start m E₀ E s c) {E' : ℕ → List SsTableEntry}
    (hasc : ∀ i, Ascending (E' i))
    (hstopped : Stopped m (nextKeyAt E₀ s.nextIndices) s.currIndices E') {i : ℕ}
    (hi : i ∈ s.currIndices) : ∀ e ∈ E' i, ¬Sst.inRound m (nextKeyAt E₀ s.nextIndices) e.key := by
  intro e he hin
  obtain ⟨j, hj, hstop⟩ | ⟨-, hstop⟩ := hstopped
  · rw [hj, List.mem_singleton] at hi
    subst hi
    obtain ⟨f, rest, hE⟩ := List.exists_cons_of_ne_nil (List.ne_nil_of_mem he)
    have hhead : (E' i).head? = some f := by
      rw [hE]
      rfl
    exact hstop f hhead (inRound_of_le (head_le (hasc i) hhead he) hin)
  · exact absurd (le_of_inRound h hin) (not_le.mpr (hstop i hi e he))

/-- INTERNAL: the map without the current group has what is due from the next key on. -/
theorem due_next (h : Ready start m E₀ E s c) {k : String}
    (hk : nextKeyAt E₀ s.nextIndices = some k) (i : ℕ) :
    (i ∈ idxs s.readBufs ∧ i ∉ s.currIndices) ↔ Due E₀ m k i := by
  have hgroup := nextGroup_some h.next hk
  rw [h.members i]
  constructor
  · rintro ⟨⟨k', hkey, hck, hle⟩, hnot⟩
    refine ⟨k', hkey, ?_, hle⟩
    obtain hsmall | hlarge := hgroup.least i ⟨k', hkey, hck, hle⟩ k' hkey
    · rw [le_antisymm hsmall hck] at hkey
      exact absurd ((h.curr i).mpr hkey) hnot
    · exact hlarge
  · rintro ⟨k', hkey, hle, hm⟩
    refine ⟨⟨k', hkey, hgroup.above.le.trans hle, hm⟩, fun hcurr => ?_⟩
    rw [(h.curr i).mp hcurr] at hkey
    cases hkey
    exact absurd hgroup.above (not_lt.mpr hle)

/-- INTERNAL: without a next group the current one is all that is due. -/
theorem due_last (h : Ready start m E₀ E s c) (hk : nextKeyAt E₀ s.nextIndices = none) {i : ℕ}
    (hi : i ∈ idxs s.readBufs) : i ∈ s.currIndices := by
  obtain ⟨k, hkey, hck, hle⟩ := (h.members i).mp hi
  have hsmall := (nextGroup_none h.next hk).2 i ⟨k, hkey, hck, hle⟩ k hkey
  rw [le_antisymm hsmall hck] at hkey
  exact (h.curr i).mpr hkey

/-- INTERNAL: where the group has given up its entries the round ends.
SOURCE: level.rs:621-744 -/
theorem mergeRound_of_group (h : Ready start m E₀ E s c) (order : Sst.IterationOrder)
    {fuel round : ℕ} {E' popped : ℕ → List SsTableEntry} {res' : List SsTableEntry × List ℕ}
    {merged : List SsTableEntry} (hasc : ∀ i, Ascending (E' i))
    (hgroup : (Sst.mergeGroup m (nextKeyAt E₀ s.nextIndices) s.currIndices fuel s.res).run
      (bufsWith start E) = .ok res' (bufsWith start E'))
    (hres : res'.1 = s.res ++ merged)
    (hworked : Worked m (nextKeyAt E₀ s.nextIndices) s.currIndices E E' popped merged)
    (hstopped : Stopped m (nextKeyAt E₀ s.nextIndices) s.currIndices E')
    (hback : ∀ i ∈ res'.2, i < start.length ∧ ¬Ahead E' m i) :
    ∃ s', (Sst.mergeRound order m fuel round s).run (bufsWith start E) =
        .ok s' (bufsWith start E') ∧ RoundDone start m E₀ E E' popped merged s s' := by
  let rest := s.readBufs.filter fun r => r.1 ∉ s.currIndices
  have htake : Sst.takeBufs s.currIndices s.readBufs = (s.currIndices, rest) :=
    takeBufs_eq h.nodup h.mapped fun i hi => (h.members i).mpr (due_curr h hi)
  have hrest : Mapped start.length rest := mapped_filter h.mapped fun i => i ∉ s.currIndices
  have hmemRest : ∀ j, j ∈ idxs rest ↔ j ∈ idxs s.readBufs ∧ j ∉ s.currIndices := by
    intro j
    have hmem := @mem_idxs_filter s.readBufs (fun i => i ∉ s.currIndices) j
    rwa [decide_eq_true_eq] at hmem
  have hnextRest : ∀ i ∈ s.nextIndices, i ∈ idxs rest := fun i hi =>
    (hmemRest i).mpr ⟨(h.members i).mpr (next_spec h hi).1, (next_spec h hi).2⟩
  have hsame : ∀ i ∈ idxs rest, E' i = E₀ i := by
    intro i hi
    obtain ⟨hpresent, hnot⟩ := (hmemRest i).mp hi
    rw [hworked.others i hnot, h.same i ((h.members i).mp hpresent)]
  have hahead : ∀ i ∈ idxs rest, Ahead E' m i := by
    intro i hi
    obtain ⟨k, hkey, -, hle⟩ := (h.members i).mp ((hmemRest i).mp hi).1
    exact ⟨k, by rw [hsame i hi, hkey], hle⟩
  obtain ⟨next', hfind, -, hnext'⟩ := findNext_ok order round hrest hahead hnextRest
  have hfilter : ∀ i ∈ s.currIndices, popped i =
        ((E₀ i).filter fun e => Sst.inRound m (nextKeyAt E₀ s.nextIndices) e.key) ∧
      E' i = (E₀ i).filter fun e => !Sst.inRound m (nextKeyAt E₀ s.nextIndices) e.key := by
    intro i hi
    rw [← h.same i (due_curr h hi)]
    exact split_eq_filter (hworked.taken.split i) (hworked.within i)
      (stopped_not_inRound h hasc hstopped hi)
  refine ⟨⟨rest, s.nextIndices, next', res'.1⟩, ?_, hworked.taken, fun i hi => (hfilter i hi).1,
    fun i hi => (hfilter i hi).2, fun i hi => ⟨worked_others hworked hi, hworked.others i hi⟩, ?_,
    hres, fun hk => ?_, fun k hk => ?_⟩
  · obtain ⟨res, back⟩ := res'
    unfold Sst.mergeRound
    rw [htake]
    dsimp only
    rw [run_bind_ok (EStateM.run_get _), nextKeyOf_eq hrest hnextRest, nextKeyAt_eq h,
      run_bind_ok (run_liftExec_ok _ _), run_bind_ok hgroup]
    dsimp only
    rw [run_bind_ok (EStateM.run_get _), putBack_nothing hback,
      run_bind_ok (run_liftExec_ok _ _), run_bind_ok (EStateM.run_get _), hfind,
      run_bind_ok (run_liftExec_ok _ _)]
    rfl
  · intro hseveral i hi e he hle
    obtain ⟨j, hj, -⟩ | ⟨-, hstop⟩ := hstopped
    · rw [hj] at hseveral
      exact absurd hseveral (lt_irrefl 1)
    · by_contra hnot
      have hin : e ∈ E' i := by
        rw [(hfilter i hi).2]
        exact List.mem_filter.mpr ⟨he, by simpa using hnot⟩
      exact absurd hle (not_le.mpr (hstop i hi e hin))
  · apply List.map_eq_nil_iff.mp
    rw [List.eq_nil_iff_forall_not_mem]
    intro i hi
    obtain ⟨hpresent, hnot⟩ := (hmemRest i).mp hi
    exact hnot (due_last h hk hpresent)
  · have hgroup' := nextGroup_some h.next hk
    have hdue : ∀ i, i ∈ idxs rest ↔ Due E₀ m k i := fun i => (hmemRest i).trans (due_next h hk i)
    obtain ⟨first, hfirst, hkey⟩ := Option.bind_eq_some_iff.mp hk
    have hfirstRest := hnextRest first (List.mem_of_mem_head? hfirst)
    have hfound := hnext' first k hfirst (by rw [hsame first hfirstRest, hkey])
    refine ⟨hrest, hdue, fun i hi => hsame i ((hdue i).mpr hi), h.next.1, hgroup'.nonempty,
      fun i => ?_, next_le h hk, ?_⟩
    · rw [hgroup'.members i]
      refine ⟨fun hi => hi.2, fun hi => ⟨⟨k, hi, hgroup'.above.le, next_le h hk⟩, hi⟩⟩
    · have hpresent : (· ∈ idxs rest) = Due E₀ m k := funext fun i => propext (hdue i)
      rw [← hpresent]
      exact nextGroup_congr hsame hfound

/-- INTERNAL: what is left of an ascending list is ascending. -/
theorem popped_ascending {E' popped : ℕ → List SsTableEntry} {merged : List SsTableEntry}
    (h : Popped E E' popped merged) {i : ℕ} (hi : Ascending (E i)) : Ascending (E' i) := by
  unfold Ascending at hi ⊢
  rw [h.split i] at hi
  exact (List.pairwise_append.mp hi).2.1

/-- INTERNAL: a round that returns has done this.
SOURCE: level.rs:621-744 -/
theorem mergeRound_eq_ok (h : Ready start m E₀ E s c) (hasc : ∀ i, Ascending (E i))
    {order : Sst.IterationOrder} {fuel round : ℕ} {s' : Sst.Merging}
    {bufs' : List Sst.SegmentReadBuf}
    (hrun : (Sst.mergeRound order m fuel round s).run (bufsWith start E) = .ok s' bufs') :
    ∃ E' popped merged, bufs' = bufsWith start E' ∧
      RoundDone start m E₀ E E' popped merged s s' := by
  have hgroup : ∃ res' bufs₁,
      (Sst.mergeGroup m (nextKeyAt E₀ s.nextIndices) s.currIndices fuel s.res).run
        (bufsWith start E) = .ok res' bufs₁ := by
    have hnextRest : ∀ i ∈ s.nextIndices,
        i ∈ idxs (s.readBufs.filter fun r => r.1 ∉ s.currIndices) := fun i hi =>
      (@mem_idxs_filter s.readBufs (fun i => i ∉ s.currIndices) i).mpr
        ⟨(h.members i).mpr (next_spec h hi).1, decide_eq_true (next_spec h hi).2⟩
    have hcopy := hrun
    unfold Sst.mergeRound at hcopy
    rw [takeBufs_eq h.nodup h.mapped fun i hi => (h.members i).mpr (due_curr h hi)] at hcopy
    dsimp only at hcopy
    rw [run_bind_ok (EStateM.run_get _),
      nextKeyOf_eq (mapped_filter h.mapped fun i => i ∉ s.currIndices) hnextRest, nextKeyAt_eq h,
      run_bind_ok (run_liftExec_ok _ _)] at hcopy
    obtain ⟨res', bufs₁, hgroup, -⟩ := run_bind_eq_ok hcopy
    exact ⟨res', bufs₁, hgroup⟩
  obtain ⟨res', bufs₁, hgroup⟩ := hgroup
  obtain ⟨E', popped, merged, hres, rfl, hworked, hstopped, hback⟩ := mergeGroup_eq_ok h hasc hgroup
  obtain ⟨s'', hrun', hdone⟩ := @mergeRound_of_group start E m E₀ s c h order fuel round E' popped
    res' merged (fun i => popped_ascending hworked.taken (hasc i)) hgroup hres hworked hstopped hback
  rw [hrun] at hrun'
  cases hrun'
  exact ⟨E', popped, merged, rfl, hdone⟩

/-- INTERNAL: a round returns if it takes every key of a shared group. -/
theorem mergeRound_returns (h : Ready start m E₀ E s c) (hasc : ∀ i, Ascending (E i))
    (order : Sst.IterationOrder) {fuel round : ℕ} (hfuel : entryCount start E < fuel)
    (hround : 1 < s.currIndices.length → ∀ i ∈ s.currIndices, ∀ e ∈ E i, e.key ≤ m →
      Sst.inRound m (nextKeyAt E₀ s.nextIndices) e.key) : ∃ s' bufs',
    (Sst.mergeRound order m fuel round s).run (bufsWith start E) = .ok s' bufs' := by
  obtain ⟨res', bufs₁, hgroup⟩ := mergeGroup_returns h hfuel hround
  obtain ⟨E', popped, merged, hres, rfl, hworked, hstopped, hback⟩ := mergeGroup_eq_ok h hasc hgroup
  obtain ⟨s', hrun, -⟩ := @mergeRound_of_group start E m E₀ s c h order fuel round E' popped
    res' merged (fun i => popped_ascending hworked.taken (hasc i)) hgroup hres hworked hstopped hback
  exact ⟨s', _, hrun⟩

end

end Rkvs.Analysis

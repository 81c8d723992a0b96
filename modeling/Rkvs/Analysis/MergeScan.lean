import Rkvs.Analysis.MergeSort

/-!
# The first scan of the read buffers

The scan finds the smallest last key and the first two groups. Each buffer it looks at becomes the
current group, joins it, becomes the next group, joins that one, or is left for later.
-/

set_option autoImplicit false

namespace Rkvs.Analysis

open Rkvs.Library Rkvs.Model Rkvs.Interface

section
variable {start : List Sst.SegmentReadBuf} {E : ℕ → List SsTableEntry}
  {readBufs : Sst.ReadBufs}

/-! ## The first scan -/

/-- INTERNAL: what the scan has found among the buffers it has looked at. The next group may still
be one above the smallest last key. -/
structure Scanned (E : ℕ → List SsTableEntry) (present : ℕ → Prop) (s : Sst.Scan) (c : String) :
    Prop where
  smallest : IsLeast {k | ∃ i, present i ∧ lastKey (E i) = some k} s.smallestFinalKey
  least : ∀ i, present i → ∀ k, headKey (E i) = some k → c ≤ k
  nodup : s.currIndices.Nodup
  nonempty : s.currIndices ≠ []
  curr : ∀ i, i ∈ s.currIndices ↔ present i ∧ headKey (E i) = some c
  nextNodup : s.nextIndices.Nodup
  next : (s.nextIndices = [] ∧ ∀ i, present i → ∀ k, headKey (E i) = some k →
      k = c ∨ s.smallestFinalKey < k) ∨
    ∃ k', c < k' ∧ s.nextIndices ≠ [] ∧
      (∀ i ∈ s.nextIndices, present i ∧ headKey (E i) = some k') ∧
      ∀ i, present i → ∀ k, headKey (E i) = some k →
        k = c ∨ s.smallestFinalKey < k ∨ (k' ≤ k ∧ (k = k' → i ∈ s.nextIndices))

/-- INTERNAL: the smaller of two last keys. -/
theorem smallest_step {present : ℕ → Prop} {smallest last : String} {i : ℕ}
    (h : IsLeast {k | ∃ j, present j ∧ lastKey (E j) = some k} smallest)
    (hlast : lastKey (E i) = some last) :
    IsLeast {k | ∃ j, (present j ∨ j = i) ∧ lastKey (E j) = some k}
      (if last < smallest then last else smallest) := by
  obtain ⟨⟨j, hj, hjlast⟩, hleast⟩ := h
  have hbound : ∀ bound, bound ≤ last → bound ≤ smallest →
      bound ∈ lowerBounds {k | ∃ j, (present j ∨ j = i) ∧ lastKey (E j) = some k} := by
    rintro bound hle hle' k ⟨j', hj' | rfl, hk⟩
    · exact hle'.trans (hleast ⟨j', hj', hk⟩)
    · rw [hlast] at hk
      cases hk
      exact hle
  split
  · rename_i hlt
    exact ⟨⟨i, Or.inr rfl, hlast⟩, hbound last (le_refl _) hlt.le⟩
  · rename_i hnot
    exact ⟨⟨j, Or.inl hj, hjlast⟩, hbound smallest (not_lt.mp hnot) (le_refl _)⟩

/-- INTERNAL: the first buffer.
SOURCE: level.rs:578-581 -/
theorem scanned_first {i : ℕ} {k last : String} (hkey : headKey (E i) = some k)
    (hlast : lastKey (E i) = some last) : Scanned E (· = i) ⟨last, [i], []⟩ k := by
  refine ⟨⟨⟨i, rfl, hlast⟩, ?_⟩, ?_, List.nodup_singleton i, List.cons_ne_nil i [], fun j => ?_,
    List.nodup_nil, Or.inl ⟨rfl, ?_⟩⟩
  · rintro k' ⟨j, rfl, hk'⟩
    rw [hlast] at hk'
    cases hk'
    exact le_refl _
  · rintro j rfl k' hk'
    rw [hkey] at hk'
    cases hk'
    exact le_refl _
  · rw [List.mem_singleton]
    constructor
    · rintro rfl
      exact ⟨rfl, hkey⟩
    · exact fun h => h.1
  · rintro j rfl k' hk'
    rw [hkey] at hk'
    cases hk'
    exact Or.inl rfl

/-! ### One more buffer -/

section
variable {present : ℕ → Prop} {s : Sst.Scan} {c k smallest : String} {i : ℕ}

/-- INTERNAL: what holds of the fronts looked at before and of the new one holds of all. -/
theorem fronts_snoc {P : ℕ → String → Prop} (hkey : headKey (E i) = some k)
    (h : ∀ j, present j → ∀ k, headKey (E j) = some k → P j k) (hi : P i k) :
    ∀ j, present j ∨ j = i → ∀ k, headKey (E j) = some k → P j k := by
  rintro j (hj | rfl) k' hk'
  · exact h j hj k' hk'
  · rw [hkey] at hk'
    cases hk'
    exact hi

/-- INTERNAL: a buffer that begins above the current group does not belong to it. -/
theorem curr_of_above (h : Scanned E present s c) (hkey : headKey (E i) = some k) (hlt : c < k)
    (j : ℕ) : j ∈ s.currIndices ↔ (present j ∨ j = i) ∧ headKey (E j) = some c := by
  rw [h.curr j]
  constructor
  · rintro ⟨hj, hk⟩
    exact ⟨Or.inl hj, hk⟩
  · rintro ⟨hj | rfl, hk⟩
    · exact ⟨hj, hk⟩
    · rw [hkey] at hk
      cases hk
      exact absurd hlt (lt_irrefl _)

/-- INTERNAL: the buffer becomes the current group, and the group before it the next.
SOURCE: level.rs:585-590 -/
theorem scanned_smaller (h : Scanned E present s c) (hkey : headKey (E i) = some k)
    (hsmallest : IsLeast {k | ∃ j, (present j ∨ j = i) ∧ lastKey (E j) = some k} smallest)
    (hlt : k < c) : Scanned E (fun j => present j ∨ j = i) ⟨smallest, [i], s.currIndices⟩ k := by
  refine ⟨hsmallest, ?_, List.nodup_singleton i, List.cons_ne_nil i [], fun j => ?_, h.nodup,
    Or.inr ⟨c, hlt, h.nonempty, fun j hj => ?_, ?_⟩⟩
  · exact @fronts_snoc E present k i (fun _ k' => k ≤ k') hkey
      (fun j hj k' hk' => hlt.le.trans (h.least j hj k' hk')) (le_refl _)
  · rw [List.mem_singleton]
    constructor
    · rintro rfl
      exact ⟨Or.inr rfl, hkey⟩
    · rintro ⟨hj | hj, hk⟩
      · exact absurd (h.least j hj _ hk) (not_le.mpr hlt)
      · exact hj
  · obtain ⟨hj, hk⟩ := (h.curr j).mp hj
    exact ⟨Or.inl hj, hk⟩
  · refine @fronts_snoc E present k i
      (fun j k' => k' = k ∨ smallest < k' ∨ (c ≤ k' ∧ (k' = c → j ∈ s.currIndices))) hkey
      (fun j hj k' hk' => Or.inr (Or.inr ⟨h.least j hj k' hk', ?_⟩)) (Or.inl rfl)
    rintro rfl
    exact (h.curr j).mpr ⟨hj, hk'⟩

/-- INTERNAL: the buffer joins the current group.
SOURCE: level.rs:585-590 -/
theorem scanned_same (h : Scanned E present s c) (hnew : ¬present i) (hkey : headKey (E i) = some c)
    (hsmallest : IsLeast {k | ∃ j, (present j ∨ j = i) ∧ lastKey (E j) = some k} smallest)
    (hless : smallest ≤ s.smallestFinalKey) :
    Scanned E (fun j => present j ∨ j = i) ⟨smallest, s.currIndices ++ [i], s.nextIndices⟩ c := by
  have hmem : i ∉ s.currIndices := fun hmem => hnew ((h.curr i).mp hmem).1
  refine ⟨hsmallest, fronts_snoc hkey h.least (le_refl _), ?_, by simp, fun j => ?_, h.nextNodup, ?_⟩
  · refine List.nodup_append.mpr ⟨h.nodup, List.nodup_singleton i, ?_⟩
    rintro a ha b hb rfl
    exact hmem (List.mem_singleton.mp hb ▸ ha)
  · rw [List.mem_append, List.mem_singleton, h.curr j]
    constructor
    · rintro (⟨hj, hk⟩ | rfl)
      · exact ⟨Or.inl hj, hk⟩
      · exact ⟨Or.inr rfl, hkey⟩
    · rintro ⟨hj | rfl, hk⟩
      · exact Or.inl ⟨hj, hk⟩
      · exact Or.inr rfl
  · obtain ⟨hnil, hnone⟩ | ⟨k', hck, hne, hmembers, hnext⟩ := h.next
    · refine Or.inl ⟨hnil, @fronts_snoc E present c i (fun _ k => k = c ∨ smallest < k) hkey
        (fun j hj k hk => ?_) (Or.inl rfl)⟩
      exact (hnone j hj k hk).imp_right hless.trans_lt
    · refine Or.inr ⟨k', hck, hne, fun j hj => ⟨Or.inl (hmembers j hj).1, (hmembers j hj).2⟩,
        @fronts_snoc E present c i (fun j k => k = c ∨ smallest < k ∨
          (k' ≤ k ∧ (k = k' → j ∈ s.nextIndices))) hkey (fun j hj k hk => ?_) (Or.inl rfl)⟩
      exact (hnext j hj k hk).imp_right fun h => h.imp_left hless.trans_lt

/-- INTERNAL: the buffer becomes the next group.
SOURCE: level.rs:591-609 -/
theorem scanned_next_alone (h : Scanned E present s c) (hkey : headKey (E i) = some k)
    (hsmallest : IsLeast {k | ∃ j, (present j ∨ j = i) ∧ lastKey (E j) = some k} smallest)
    (hlt : c < k) (hothers : ∀ j, present j → ∀ k', headKey (E j) = some k' →
      k' = c ∨ smallest < k' ∨ k < k') :
    Scanned E (fun j => present j ∨ j = i) ⟨smallest, s.currIndices, [i]⟩ c := by
  refine ⟨hsmallest, fronts_snoc hkey h.least hlt.le, h.nodup, h.nonempty,
    @curr_of_above E present s c k i h hkey hlt, List.nodup_singleton i,
    Or.inr ⟨k, hlt, List.cons_ne_nil i [], fun j hj => ?_, ?_⟩⟩
  · rw [List.mem_singleton.mp hj]
    exact ⟨Or.inr rfl, hkey⟩
  · refine @fronts_snoc E present k i
      (fun j k' => k' = c ∨ smallest < k' ∨ (k ≤ k' ∧ (k' = k → j ∈ [i]))) hkey
      (fun j hj k' hk' => ?_) (Or.inr (Or.inr ⟨le_refl _, fun _ => List.mem_singleton_self i⟩))
    exact (hothers j hj k' hk').imp_right fun h => h.imp_right fun h =>
      ⟨h.le, fun hsame => absurd hsame (ne_of_gt h)⟩

/-- INTERNAL: the buffer joins the next group.
SOURCE: level.rs:591-609 -/
theorem scanned_next_same (h : Scanned E present s c) (hnew : ¬present i)
    (hkey : headKey (E i) = some k)
    (hsmallest : IsLeast {k | ∃ j, (present j ∨ j = i) ∧ lastKey (E j) = some k} smallest)
    (hless : smallest ≤ s.smallestFinalKey) (hlt : c < k)
    (hmembers : ∀ j ∈ s.nextIndices, present j ∧ headKey (E j) = some k)
    (hnext : ∀ j, present j → ∀ k', headKey (E j) = some k' →
      k' = c ∨ s.smallestFinalKey < k' ∨ (k ≤ k' ∧ (k' = k → j ∈ s.nextIndices))) :
    Scanned E (fun j => present j ∨ j = i) ⟨smallest, s.currIndices, s.nextIndices ++ [i]⟩ c := by
  have hmem : i ∉ s.nextIndices := fun hmem => hnew (hmembers i hmem).1
  refine ⟨hsmallest, fronts_snoc hkey h.least hlt.le, h.nodup, h.nonempty,
    @curr_of_above E present s c k i h hkey hlt, ?_, Or.inr ⟨k, hlt, by simp, fun j hj => ?_, ?_⟩⟩
  · refine List.nodup_append.mpr ⟨h.nextNodup, List.nodup_singleton i, ?_⟩
    rintro a ha b hb rfl
    exact hmem (List.mem_singleton.mp hb ▸ ha)
  · obtain hj | hj := List.mem_append.mp hj
    · exact ⟨Or.inl (hmembers j hj).1, (hmembers j hj).2⟩
    · rw [List.mem_singleton.mp hj]
      exact ⟨Or.inr rfl, hkey⟩
  · refine @fronts_snoc E present k i (fun j k' => k' = c ∨ smallest < k' ∨
      (k ≤ k' ∧ (k' = k → j ∈ s.nextIndices ++ [i]))) hkey (fun j hj k' hk' => ?_)
      (Or.inr (Or.inr ⟨le_refl _, fun _ => List.mem_append_right _ (List.mem_singleton_self i)⟩))
    exact (hnext j hj k' hk').imp_right fun h => h.imp hless.trans_lt fun h =>
      ⟨h.1, fun hsame => List.mem_append_left _ (h.2 hsame)⟩

/-- INTERNAL: the buffer is left for later.
SOURCE: level.rs:591-609 -/
theorem scanned_later (h : Scanned E present s c) (hkey : headKey (E i) = some k)
    (hsmallest : IsLeast {k | ∃ j, (present j ∨ j = i) ∧ lastKey (E j) = some k} smallest)
    (hless : smallest ≤ s.smallestFinalKey) (hlt : c < k)
    (hlater : smallest < k ∨ ∀ j ∈ s.nextIndices, ∀ k', headKey (E j) = some k' → k' < k)
    (hsome : s.nextIndices = [] → smallest < k) :
    Scanned E (fun j => present j ∨ j = i) ⟨smallest, s.currIndices, s.nextIndices⟩ c := by
  refine ⟨hsmallest, fronts_snoc hkey h.least hlt.le, h.nodup, h.nonempty,
    @curr_of_above E present s c k i h hkey hlt, h.nextNodup, ?_⟩
  obtain ⟨hnil, hnone⟩ | ⟨k', hck, hne, hmembers, hnext⟩ := h.next
  · refine Or.inl ⟨hnil, @fronts_snoc E present k i (fun _ k => k = c ∨ smallest < k) hkey
      (fun j hj k hk => ?_) (Or.inr (hsome hnil))⟩
    exact (hnone j hj k hk).imp_right hless.trans_lt
  · have hlater : smallest < k ∨ k' < k := by
      obtain ⟨j, hj⟩ := List.exists_mem_of_ne_nil _ hne
      exact hlater.imp_right fun h => h j hj k' (hmembers j hj).2
    refine Or.inr ⟨k', hck, hne, fun j hj => ⟨Or.inl (hmembers j hj).1, (hmembers j hj).2⟩,
      @fronts_snoc E present k i (fun j k => k = c ∨ smallest < k ∨
        (k' ≤ k ∧ (k = k' → j ∈ s.nextIndices))) hkey (fun j hj k hk => ?_)
        (Or.inr (hlater.imp_right fun h => ⟨h.le, fun hsame => absurd hsame (ne_of_gt h)⟩))⟩
    exact (hnext j hj k hk).imp_right fun h => h.imp_left hless.trans_lt

/-- INTERNAL: how the scan places a buffer, by its first key.
SOURCE: level.rs:573-612 -/
theorem scan_step_eq {front back : SsTableEntry} (hmapped : Mapped start.length readBufs)
    (hpresent : ∀ j, present j → j ∈ idxs readBufs) (hi : i < start.length)
    (hsome : s.smallestFinalKey ≠ "") (hfront : (E i).head? = some front)
    (hback : (E i).getLast? = some back) (h : Scanned E present s c)
    (hsm : smallest = if back.key < s.smallestFinalKey then back.key else s.smallestFinalKey) :
    s.step (bufsWith start E) readBufs (i, i) = (
      if front.key ≤ c then
        if c ≠ front.key then .ok ⟨smallest, [i], s.currIndices⟩
        else .ok ⟨smallest, s.currIndices ++ [i], s.nextIndices⟩
      else if front.key ≤ smallest then
        s.nextIndices.head?.elim (.ok ⟨smallest, s.currIndices, s.nextIndices ++ [i]⟩)
          fun nextIdx => do
            let nextKey ← readBufs.frontKey (bufsWith start E) nextIdx
            let nextIndices := if front.key < nextKey then [] else s.nextIndices
            return ⟨smallest, s.currIndices,
              if front.key ≤ nextKey then nextIndices ++ [i] else nextIndices⟩
      else .ok ⟨smallest, s.currIndices, s.nextIndices⟩) := by
  have hif : (if s.smallestFinalKey = "" ∨ back.key < s.smallestFinalKey then back.key
      else s.smallestFinalKey) = smallest := by
    simp only [hsm, hsome, false_or]
  obtain ⟨first, others, hcurr⟩ := List.exists_cons_of_ne_nil h.nonempty
  have hfirst : present first ∧ headKey (E first) = some c := by
    apply (h.curr first).mp
    rw [hcurr]
    exact List.mem_cons_self ..
  unfold Sst.Scan.step
  rw [backAt_bufsWith hi, hback, unwrap_some, exec_ok_bind, frontAt_head hi hfront, unwrap_some,
    exec_ok_bind, hif, hcurr]
  dsimp only [List.head?_cons]
  rw [frontKey_eq hmapped (hpresent first hfirst.1) hfirst.2, exec_ok_bind]
  cases s.nextIndices.head? <;> rfl

/-- INTERNAL: one more buffer.
SOURCE: level.rs:573-612 -/
theorem scan_step {last : String} (hmapped : Mapped start.length readBufs)
    (hpresent : ∀ j, present j → j ∈ idxs readBufs) (hi : i ∈ idxs readBufs) (hnew : ¬present i)
    (hkeys : ∀ j, ∀ e ∈ E j, e.key ≠ "") (hkey : headKey (E i) = some k)
    (hlast : lastKey (E i) = some last) (h : Scanned E present s c) : ∃ s' c',
      s.step (bufsWith start E) readBufs (i, i) = .ok s' ∧
        Scanned E (fun j => present j ∨ j = i) s' c' := by
  obtain ⟨front, hfront, rfl⟩ := headKey_eq_some.mp hkey
  obtain ⟨back, hback, rfl⟩ := Option.map_eq_some_iff.mp hlast
  have hsome : s.smallestFinalKey ≠ "" := by
    obtain ⟨⟨j, -, hj⟩, -⟩ := h.smallest
    obtain ⟨e, he, hekey⟩ := Option.map_eq_some_iff.mp hj
    rw [← hekey]
    exact hkeys j e (List.mem_of_getLast? he)
  have hsmallest := smallest_step h.smallest hlast
  have hless : (if back.key < s.smallestFinalKey then back.key else s.smallestFinalKey) ≤
      s.smallestFinalKey := by
    split
    · rename_i hlt
      exact hlt.le
    · exact le_refl _
  have hstep := scan_step_eq hmapped hpresent (hmapped.inside i hi) hsome hfront hback h rfl
  generalize (if back.key < s.smallestFinalKey then back.key else s.smallestFinalKey) = smallest
    at hsmallest hless hstep
  rw [hstep]
  obtain hlt | rfl | hgt := lt_trichotomy front.key c
  · rw [if_pos hlt.le, if_pos (ne_of_gt hlt)]
    exact ⟨_, _, rfl, scanned_smaller h hkey hsmallest hlt⟩
  · rw [if_pos (le_refl _), if_neg (fun hne => hne rfl)]
    exact ⟨_, _, rfl, scanned_same h hnew hkey hsmallest hless⟩
  rw [if_neg (not_le.mpr hgt)]
  by_cases hle : front.key ≤ smallest
  · rw [if_pos hle]
    obtain ⟨hnil, hnone⟩ | ⟨k', hck, hne, hmembers, hnext⟩ := h.next
    · rw [hnil]
      refine ⟨_, c, rfl, scanned_next_alone h hkey hsmallest hgt fun j hj k hk => ?_⟩
      exact (hnone j hj k hk).imp_right fun h => Or.inl (hless.trans_lt h)
    · obtain ⟨nextFirst, nextOthers, hcons⟩ := List.exists_cons_of_ne_nil hne
      have hnextFirst : present nextFirst ∧ headKey (E nextFirst) = some k' := by
        apply hmembers
        rw [hcons]
        exact List.mem_cons_self ..
      have hnextHead : s.nextIndices.head? = some nextFirst := by
        rw [hcons]
        rfl
      rw [hnextHead, Option.elim_some,
        frontKey_eq hmapped (hpresent nextFirst hnextFirst.1) hnextFirst.2, exec_ok_bind]
      refine ⟨_, c, rfl, ?_⟩
      obtain hsmaller | rfl | hlarger := lt_trichotomy front.key k'
      · rw [if_pos hsmaller, if_pos hsmaller.le, List.nil_append]
        apply scanned_next_alone h hkey hsmallest hgt
        intro j hj k hk
        exact (hnext j hj k hk).imp_right fun h => h.imp hless.trans_lt fun h =>
          hsmaller.trans_le h.1
      · rw [if_neg (lt_irrefl _), if_pos (le_refl _)]
        exact scanned_next_same h hnew hkey hsmallest hless hgt hmembers hnext
      · rw [if_neg (not_lt.mpr hlarger.le), if_neg (not_le.mpr hlarger)]
        refine scanned_later h hkey hsmallest hless hgt (Or.inr fun j hj k hk => ?_)
          fun hnil => absurd hnil hne
        rw [(hmembers j hj).2] at hk
        cases hk
        exact hlarger
  · rw [if_neg hle]
    have hlt := not_le.mp hle
    exact ⟨_, c, rfl, scanned_later h hkey hsmallest hless hgt (Or.inl hlt) fun _ => hlt⟩

end

end

end Rkvs.Analysis

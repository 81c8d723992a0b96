import Rkvs.Analysis.MergeScan

/-!
# The result of a merge of read buffers

A merge that returns has merged what its buffers hold before they are overtaken, up to the smallest
last key. It returns exactly if the buffers that share a first key are done with in time, and it has
then merged all keys up to the smallest last one exactly if the others are, too.
-/

set_option autoImplicit false

namespace Rkvs.Analysis

open Rkvs.Library Rkvs.Model Rkvs.Interface

/-! ## The first scan of all buffers -/

section
variable {start : List Sst.SegmentReadBuf} {E : ℕ → List SsTableEntry}
  {readBufs : Sst.ReadBufs} {scan : Sst.Scan} {c : String}

/-- INTERNAL: a list with an entry has a first key. -/
theorem headKey_of_ne_nil {entries : List SsTableEntry} (h : entries ≠ []) :
    ∃ k, headKey entries = some k := by
  obtain ⟨e, rest, rfl⟩ := List.exists_cons_of_ne_nil h
  exact ⟨e.key, rfl⟩

/-- INTERNAL: a list with an entry has a last key. -/
theorem lastKey_of_ne_nil {entries : List SsTableEntry} (h : entries ≠ []) :
    ∃ k, lastKey entries = some k :=
  ⟨_, congrArg (Option.map SsTableEntry.key) (List.getLast?_eq_some_getLast h)⟩

/-- INTERNAL: the scan of the first buffer.
SOURCE: level.rs:573-581 -/
theorem scan_start {i : ℕ} (hi : i < start.length) (h : E i ≠ []) :
    ∃ scan c, Sst.Scan.step (bufsWith start E) readBufs ⟨"", [], []⟩ (i, i) = .ok scan ∧
      Scanned E (· = i) scan c := by
  obtain ⟨k, hkey⟩ := headKey_of_ne_nil h
  obtain ⟨last, hlast⟩ := lastKey_of_ne_nil h
  refine ⟨_, k, ?_, scanned_first hkey hlast⟩
  obtain ⟨front, hfront, rfl⟩ := headKey_eq_some.mp hkey
  obtain ⟨back, hback, rfl⟩ := Option.map_eq_some_iff.mp hlast
  unfold Sst.Scan.step
  rw [backAt_bufsWith hi, hback, unwrap_some, exec_ok_bind, frontAt_head hi hfront, unwrap_some,
    exec_ok_bind]
  rfl

/-- INTERNAL: the scan of all buffers, by induction on those it has looked at.
SOURCE: level.rs:573-612 -/
theorem scan_fold (hmapped : Mapped start.length readBufs)
    (hkeys : ∀ j, ∀ e ∈ E j, e.key ≠ "") (entries : Sst.ReadBufs)
    (hentries : Mapped start.length entries) (hsub : ∀ i ∈ idxs entries, i ∈ idxs readBufs)
    (hfull : ∀ i ∈ idxs entries, E i ≠ []) (hne : entries ≠ []) :
    ∃ scan c, entries.foldlM (Sst.Scan.step (bufsWith start E) readBufs) ⟨"", [], []⟩ =
        .ok scan ∧ Scanned E (· ∈ idxs entries) scan c := by
  induction entries using List.reverseRecOn with
  | nil => exact absurd rfl hne
  | append_singleton entries r ih =>
    have hidxs : idxs (entries ++ [r]) = idxs entries ++ [r.1] := List.map_append
    have hmem : ∀ j, j ∈ idxs (entries ++ [r]) ↔ j ∈ idxs entries ∨ j = r.1 := by
      intro j
      rw [hidxs, List.mem_append, List.mem_singleton]
    have hlast : r.1 ∈ idxs (entries ++ [r]) := (hmem r.1).mpr (Or.inr rfl)
    have hsame : r = (r.1, r.1) :=
      Prod.ext rfl (hentries.same r (List.mem_append_right _ (List.mem_singleton_self _))).symm
    rw [List.foldlM_append]
    by_cases hfirst : entries = []
    · subst hfirst
      obtain ⟨scan, c, hstep, hscanned⟩ := @scan_start start E readBufs r.1
        (hentries.inside r.1 hlast) (hfull r.1 hlast)
      have hpresent : (· = r.1) = (· ∈ idxs ([] ++ [r])) := by
        funext j
        apply propext
        rw [hmem]
        exact ⟨Or.inr, fun h => h.resolve_left List.not_mem_nil⟩
      refine ⟨scan, c, ?_, hpresent ▸ hscanned⟩
      rw [List.foldlM_nil, exec_pure, exec_ok_bind, List.foldlM_cons, hsame, hstep]
      rfl
    · have hnodup := hentries.nodup
      rw [hidxs] at hnodup
      have hnew : r.1 ∉ idxs entries := fun hin =>
        (List.nodup_append.mp hnodup).2.2 _ hin _ (List.mem_singleton_self _) rfl
      obtain ⟨scan, c, hrun, hscanned⟩ := ih
        ⟨fun q hq => hentries.same q (List.mem_append_left _ hq), (List.nodup_append.mp hnodup).1,
          fun i hi => hentries.inside i ((hmem i).mpr (Or.inl hi))⟩
        (fun i hi => hsub i ((hmem i).mpr (Or.inl hi)))
        (fun i hi => hfull i ((hmem i).mpr (Or.inl hi))) hfirst
      obtain ⟨k, hkey⟩ := headKey_of_ne_nil (hfull r.1 hlast)
      obtain ⟨last, hback⟩ := lastKey_of_ne_nil (hfull r.1 hlast)
      obtain ⟨scan', c', hstep, hscanned'⟩ := scan_step hmapped
        (fun j hj => hsub j ((hmem j).mpr (Or.inl hj))) (hsub r.1 hlast) hnew hkeys hkey hback
        hscanned
      have hpresent : (fun j => j ∈ idxs entries ∨ j = r.1) = (· ∈ idxs (entries ++ [r])) :=
        funext fun j => propext (hmem j).symm
      refine ⟨scan', c', ?_, hpresent ▸ hscanned'⟩
      rw [hrun, exec_ok_bind, List.foldlM_cons, hsame, hstep]
      rfl

/-! ## The first state of the loop -/

/-- INTERNAL: what stays in the map.
SOURCE: level.rs:613 -/
theorem retainBufs_ok {m : String} (h : Mapped start.length readBufs)
    (hfull : ∀ i ∈ idxs readBufs, E i ≠ []) :
    ∃ readBufs', Sst.retainBufs (bufsWith start E) m readBufs = .ok readBufs' ∧
      Mapped start.length readBufs' ∧
      ∀ j, j ∈ idxs readBufs' ↔ j ∈ idxs readBufs ∧ Ahead E m j := by
  classical
  let p : ℕ → Bool := fun i => decide (Ahead E m i)
  have hfilter : Sst.retainBufs (bufsWith start E) m readBufs =
      .ok (readBufs.filter fun r => p r.1) := by
    obtain ⟨same, -, inside⟩ := h
    induction readBufs with
    | nil => rfl
    | cons r readBufs ih =>
      have hmem : r.1 ∈ idxs (r :: readBufs) := List.mem_cons_self ..
      have hplace : r.2 = r.1 := (same r (List.mem_cons_self ..)).symm
      obtain ⟨k, hkey⟩ := headKey_of_ne_nil (hfull r.1 hmem)
      obtain ⟨front, hfront, rfl⟩ := headKey_eq_some.mp hkey
      have hahead : Ahead E m r.1 ↔ front.key ≤ m := by
        constructor
        · rintro ⟨k, hk, hle⟩
          rw [hkey] at hk
          cases hk
          exact hle
        · exact fun hle => ⟨front.key, hkey, hle⟩
      rw [Sst.retainBufs, hplace, frontAt_head (inside r.1 hmem) hfront, unwrap_some, exec_ok_bind,
        ih (fun i hi => hfull i (List.mem_cons_of_mem _ hi))
          (fun q hq => same q (List.mem_cons_of_mem _ hq))
          (fun i hi => inside i (List.mem_cons_of_mem _ hi)), exec_ok_bind, List.filter_cons]
      by_cases hle : front.key ≤ m
      · rw [if_pos hle, if_pos (decide_eq_true (hahead.mpr hle))]
        rfl
      · rw [if_neg hle, if_neg (fun hp => hle (hahead.mp (of_decide_eq_true hp)))]
        rfl
  refine ⟨_, hfilter, mapped_filter h p, fun j => ?_⟩
  rw [mem_idxs_filter, decide_eq_true_eq]

/-- INTERNAL: the first group has keys up to the smallest last key. -/
theorem scanned_le {present : ℕ → Prop} (h : Scanned E present scan c)
    (hascending : ∀ i, (E i).Pairwise fun e f => e.key < f.key) : c ≤ scan.smallestFinalKey := by
  obtain ⟨⟨i, hi, hlast⟩, -⟩ := h.smallest
  obtain ⟨back, hback, hkey⟩ := Option.map_eq_some_iff.mp hlast
  have hmem : back ∈ E i := List.mem_of_getLast? hback
  obtain ⟨front, rest, hE⟩ := List.exists_cons_of_ne_nil (List.ne_nil_of_mem hmem)
  have hhead : (E i).head? = some front := by
    rw [hE]
    rfl
  rw [← hkey]
  exact (h.least i hi front.key (headKey_eq_some.mpr ⟨front, hhead, rfl⟩)).trans
    (head_le (hascending i) hhead hmem)

/-- INTERNAL: the next group is dropped if it is above the smallest last key.
SOURCE: level.rs:614-618 -/
theorem scanned_next {readBufs' : Sst.ReadBufs} {n : ℕ}
    (h : Scanned E (· ∈ idxs readBufs) scan c) (hmapped : Mapped n readBufs')
    (hmem : ∀ j, j ∈ idxs readBufs' ↔ j ∈ idxs readBufs ∧ Ahead E scan.smallestFinalKey j) :
    NextGroup E (· ∈ idxs readBufs') c
      (scan.nextIndices.filter fun idx => (readBufs'.lookup idx).isSome) := by
  have hkept : ∀ i, (readBufs'.lookup i).isSome = true ↔ i ∈ idxs readBufs' := by
    intro i
    constructor
    · intro hsome
      obtain ⟨r, hr, hkey⟩ := List.lookup_isSome_iff.mp hsome
      rw [beq_iff_eq.mp hkey]
      exact List.mem_map_of_mem hr
    · intro hi
      rw [lookup_of_mem hmapped hi]
      rfl
  have hle : ∀ {i k}, i ∈ idxs readBufs' → headKey (E i) = some k → k ≤ scan.smallestFinalKey := by
    intro i k hi hk
    obtain ⟨-, k', hk', hle⟩ := (hmem i).mp hi
    rw [hk] at hk'
    cases hk'
    exact hle
  refine ⟨h.nextNodup.filter _, ?_⟩
  obtain ⟨hnil, hnone⟩ | ⟨k', hck, hne, hmembers, hnext⟩ := h.next
  · refine Or.inl ⟨by rw [hnil]; rfl, fun i hi k hk => ?_⟩
    obtain rfl | hlt := hnone i ((hmem i).mp hi).1 k hk
    · exact le_refl _
    · exact absurd (hle hi hk) (not_le.mpr hlt)
  · by_cases hkm : k' ≤ scan.smallestFinalKey
    · have hall : ∀ i ∈ scan.nextIndices, i ∈ idxs readBufs' := fun i hi =>
        (hmem i).mpr ⟨(hmembers i hi).1, k', (hmembers i hi).2, hkm⟩
      have hfilter : (scan.nextIndices.filter fun idx => (readBufs'.lookup idx).isSome) =
          scan.nextIndices := List.filter_eq_self.mpr fun i hi => (hkept i).mpr (hall i hi)
      rw [hfilter]
      refine Or.inr ⟨k', hck, hne, fun i => ⟨fun hi => ⟨hall i hi, (hmembers i hi).2⟩, ?_⟩, ?_⟩
      · rintro ⟨hi, hk⟩
        obtain rfl | hlt | ⟨-, hin⟩ := hnext i ((hmem i).mp hi).1 k' hk
        · exact absurd hck (lt_irrefl _)
        · exact absurd hkm (not_le.mpr hlt)
        · exact hin rfl
      · intro i hi k hk
        obtain rfl | hlt | ⟨hge, -⟩ := hnext i ((hmem i).mp hi).1 k hk
        · exact Or.inl (le_refl _)
        · exact absurd (hle hi hk) (not_le.mpr hlt)
        · exact Or.inr hge
    · have hfilter : (scan.nextIndices.filter fun idx => (readBufs'.lookup idx).isSome) = [] := by
        rw [List.filter_eq_nil_iff]
        intro i hi hin
        exact hkm (hle ((hkept i).mp hin) (hmembers i hi).2)
      refine Or.inl ⟨hfilter, fun i hi k hk => ?_⟩
      obtain rfl | hlt | ⟨hge, -⟩ := hnext i ((hmem i).mp hi).1 k hk
      · exact le_refl _
      · exact absurd (hle hi hk) (not_le.mpr hlt)
      · exact absurd (hge.trans (hle hi hk)) hkm

/-- INTERNAL: the buffers that stay in the map are due. -/
theorem due_of_scan {readBufs' : Sst.ReadBufs} (h : Scanned E (· ∈ idxs readBufs) scan c)
    (hall : ∀ i k, headKey (E i) = some k → i ∈ idxs readBufs)
    (hmem : ∀ j, j ∈ idxs readBufs' ↔ j ∈ idxs readBufs ∧ Ahead E scan.smallestFinalKey j) (i : ℕ) :
    i ∈ idxs readBufs' ↔ Due E scan.smallestFinalKey c i := by
  rw [hmem i]
  constructor
  · rintro ⟨hi, k, hkey, hle⟩
    exact ⟨k, hkey, h.least i hi k hkey, hle⟩
  · rintro ⟨k, hkey, -, hle⟩
    exact ⟨hall i k hkey, k, hkey, hle⟩

/-- INTERNAL: the scan leads to the first state of the loop. -/
theorem ready_of_scan {readBufs' : Sst.ReadBufs} (h : Scanned E (· ∈ idxs readBufs) scan c)
    (hascending : ∀ i, Ascending (E i)) (hall : ∀ i k, headKey (E i) = some k → i ∈ idxs readBufs)
    (hmapped : Mapped start.length readBufs')
    (hmem : ∀ j, j ∈ idxs readBufs' ↔ j ∈ idxs readBufs ∧ Ahead E scan.smallestFinalKey j) :
    Ready start scan.smallestFinalKey E E ⟨readBufs', scan.currIndices,
      scan.nextIndices.filter fun idx => (readBufs'.lookup idx).isSome, []⟩ c := by
  have hdue := due_of_scan h hall hmem
  have hpresent : (· ∈ idxs readBufs') = Due E scan.smallestFinalKey c :=
    funext fun i => propext (hdue i)
  refine ⟨hmapped, hdue, fun _ _ => rfl, h.nodup, h.nonempty, fun i => ?_, scanned_le h hascending,
    hpresent ▸ scanned_next h hmapped hmem⟩
  rw [h.curr i]
  exact ⟨fun hi => hi.2, fun hkey => ⟨hall i c hkey, hkey⟩⟩

end

/-! ## The read buffers of a merge -/

section
variable {bufs : List Sst.SegmentReadBuf}

/-- INTERNAL: what holds of every buffer without entries and of every filled one holds at every
place. -/
theorem entriesAt_of_filled (hfilled : ∀ b ∈ bufs, Filled b) {P : List SsTableEntry → Prop}
    (hnil : P []) (hP : ∀ b, Filled b → P b.buf) (i : ℕ) : P (entriesAt bufs i) := by
  by_cases hi : i < bufs.length
  · rw [entriesAt_eq (List.getElem?_eq_getElem hi)]
    exact hP _ (hfilled _ (List.getElem_mem hi))
  · rwa [entriesAt_outside (not_lt.mp hi)]

/-- INTERNAL: the keys of a filled buffer ascend. -/
theorem entriesAt_ascending (hfilled : ∀ b ∈ bufs, Filled b) (i : ℕ) :
    (entriesAt bufs i).Pairwise fun e f => e.key < f.key :=
  entriesAt_of_filled hfilled List.Pairwise.nil (fun _ h => h.ascending) i

/-- INTERNAL: and none of them is empty. -/
theorem entriesAt_keys (hfilled : ∀ b ∈ bufs, Filled b) (i : ℕ) :
    ∀ e ∈ entriesAt bufs i, e.key ≠ "" :=
  @entriesAt_of_filled bufs hfilled (fun entries => ∀ e ∈ entries, e.key ≠ "")
    (fun _ he => absurd he List.not_mem_nil) (fun _ h => h.keys) i

/-- INTERNAL: a filled buffer has an entry. -/
theorem entriesAt_nonempty (hfilled : ∀ b ∈ bufs, Filled b) {i : ℕ} (hi : i < bufs.length) :
    entriesAt bufs i ≠ [] := by
  rw [entriesAt_eq (List.getElem?_eq_getElem hi)]
  exact (hfilled _ (List.getElem_mem hi)).nonempty

/-- INTERNAL: buffers hold the entries they hold. -/
theorem bufsWith_entriesAt (haccounted : ∀ b ∈ bufs, Accounted b) :
    bufsWith bufs (entriesAt bufs) = bufs := by
  apply List.ext_getElem?
  intro i
  rw [bufsWith_getElem?]
  cases hb : bufs[i]? with
  | none => rfl
  | some b =>
    have hsize : b.size = framedBytes b.buf := haccounted b (List.mem_of_getElem? hb)
    rw [Option.map_some, entriesAt_eq hb]
    unfold withEntries
    rw [← hsize]

/-- INTERNAL: the smallest last key by the places of the buffers. -/
theorem smallestLastKey_iff {m : String} : SmallestLastKey (held bufs) m ↔
    IsLeast {k | ∃ i, i < bufs.length ∧ lastKey (entriesAt bufs i) = some k} m := by
  have hsame : {k | ∃ entries ∈ held bufs, lastKey entries = some k} =
      {k | ∃ i, i < bufs.length ∧ lastKey (entriesAt bufs i) = some k} := by
    ext k
    constructor
    · rintro ⟨entries, hmem, hk⟩
      obtain ⟨i, hi⟩ := List.mem_iff_getElem?.mp hmem
      obtain ⟨hlt, rfl⟩ := (held_getElem? bufs i).mp hi
      exact ⟨i, hlt, hk⟩
    · rintro ⟨i, hi, hk⟩
      exact ⟨_, List.mem_of_getElem? ((held_getElem? bufs i).mpr ⟨hi, rfl⟩), hk⟩
  unfold SmallestLastKey
  rw [hsame]

/-- INTERNAL: every buffer is referred to. -/
theorem idxs_readBufRefs : idxs (Sst.readBufRefs bufs) = List.range bufs.length := by
  unfold idxs Sst.readBufRefs
  rw [List.map_map]
  exact List.map_id _

/-- INTERNAL: every buffer is referred to once. -/
theorem mapped_readBufRefs : Mapped bufs.length (Sst.readBufRefs bufs) := by
  refine ⟨fun r hr => ?_, ?_, fun i hi => ?_⟩
  · obtain ⟨i, -, rfl⟩ := List.mem_map.mp hr
    rfl
  · rw [idxs_readBufRefs]
    exact List.nodup_range
  · rwa [idxs_readBufRefs, List.mem_range] at hi

/-- INTERNAL: there are as many references as buffers. -/
theorem length_readBufRefs : (Sst.readBufRefs bufs).length = bufs.length := by
  unfold Sst.readBufRefs
  rw [List.length_map, List.length_range]

/-! ## Several buffers -/

/-- INTERNAL: a merge of several buffers is its loop from the first state.
SOURCE: level.rs:568-620 -/
theorem mergeSort_several (hseveral : 1 < bufs.length) (hfilled : ∀ b ∈ bufs, Filled b)
    {m : String} (hm : SmallestLastKey (held bufs) m) (order : Sst.IterationOrder) (fuel : ℕ) :
    ∃ s c, UpTo bufs m (entriesAt bufs) s c ∧
      (∀ i k, headKey (entriesAt bufs i) = some k → c ≤ k) ∧
      (Sst.mergeSort order fuel (Sst.readBufRefs bufs)).run bufs =
        (Sst.mergeLoop order m fuel fuel 1 s).run bufs := by
  have hbufs := bufsWith_entriesAt fun b hb => (hfilled b hb).accounted
  have hperm := order.perm 0 (Sst.readBufRefs bufs)
  have hidxs : ∀ i, i ∈ idxs (order.iter 0 (Sst.readBufRefs bufs)) ↔ i < bufs.length := by
    intro i
    rw [(idxs_perm hperm).mem_iff, idxs_readBufRefs, List.mem_range]
  have hrefs : ∀ i, i ∈ idxs (Sst.readBufRefs bufs) ↔ i < bufs.length := by
    intro i
    rw [idxs_readBufRefs, List.mem_range]
  have hne : order.iter 0 (Sst.readBufRefs bufs) ≠ [] := by
    apply List.ne_nil_of_length_pos
    rw [hperm.length_eq, length_readBufRefs]
    exact Nat.zero_lt_of_lt hseveral
  obtain ⟨scan, c, hscan, hscanned⟩ := @scan_fold bufs (entriesAt bufs) (Sst.readBufRefs bufs)
    mapped_readBufRefs (entriesAt_keys hfilled) (order.iter 0 (Sst.readBufRefs bufs))
    (mapped_perm mapped_readBufRefs hperm)
    (fun i hi => (hrefs i).mpr ((hidxs i).mp hi))
    (fun i hi => entriesAt_nonempty hfilled ((hidxs i).mp hi)) hne
  have hpresent : (· ∈ idxs (order.iter 0 (Sst.readBufRefs bufs))) =
      (· ∈ idxs (Sst.readBufRefs bufs)) :=
    funext fun i => propext ((hidxs i).trans (hrefs i).symm)
  rw [hpresent] at hscanned
  have hsmallest : scan.smallestFinalKey = m := by
    have hleast := hscanned.smallest
    simp only [hrefs] at hleast
    exact hleast.unique (smallestLastKey_iff.mp hm)
  have hall : ∀ i k, headKey (entriesAt bufs i) = some k → i ∈ idxs (Sst.readBufRefs bufs) :=
    fun i k hkey => (hrefs i).mpr (inside_of_head hkey)
  have hleast : ∀ i k, headKey (entriesAt bufs i) = some k → c ≤ k := fun i k hkey =>
    hscanned.least i (hall i k hkey) k hkey
  obtain ⟨readBufs', hretain, hmapped, hmem⟩ := @retainBufs_ok bufs (entriesAt bufs)
    (Sst.readBufRefs bufs) scan.smallestFinalKey mapped_readBufRefs
    fun i hi => entriesAt_nonempty hfilled ((hrefs i).mp hi)
  have hready := ready_of_scan hscanned (entriesAt_ascending hfilled) hall hmapped hmem
  rw [hbufs] at hscan hretain
  rw [hsmallest] at hretain hready
  refine ⟨_, c, ⟨hready, fun i k hkey hlt => ?_, fun _ _ => rfl, _, Popped.nil, ?_⟩, hleast, ?_⟩
  · exact absurd hlt (not_lt.mpr (hleast i k hkey))
  · exact fun i e he => absurd he List.not_mem_nil
  · have hlength : (Sst.readBufRefs bufs).length ≠ 1 := by
      rw [length_readBufRefs]
      exact ne_of_gt hseveral
    have hsome : (Sst.readBufRefs bufs).isEmpty = false := by
      rw [List.isEmpty_eq_false_iff, ← List.length_pos_iff, length_readBufRefs]
      exact Nat.zero_lt_of_lt hseveral
    unfold Sst.mergeSort
    rw [hsome, if_neg Bool.false_ne_true, if_neg hlength, run_bind_ok (EStateM.run_get _), hscan,
      run_bind_ok (run_liftExec_ok _ _), hsmallest, hretain, run_bind_ok (run_liftExec_ok _ _)]

/-! ## The only buffer -/

/-- INTERNAL: all entries of a buffer are taken, by induction on the rounds.
SOURCE: level.rs:562-567 -/
theorem drainAll_eq {start : List Sst.SegmentReadBuf} {i fuel : ℕ} (hi : i < start.length)
    {E : ℕ → List SsTableEntry} (hfuel : (E i).length < fuel) (res : List SsTableEntry) :
    (Sst.drainAll i fuel res).run (bufsWith start E) =
      .ok (res ++ E i) (bufsWith start (Function.update E i [])) := by
  induction fuel generalizing E res with
  | zero => exact absurd hfuel (Nat.not_lt_zero _)
  | succ fuel ih =>
    rw [Sst.drainAll]
    cases hE : E i with
    | nil =>
      rw [run_bind_ok (popFrontAt_nil hi hE), ← hE, Function.update_eq_self, hE, List.append_nil]
      rfl
    | cons e rest =>
      rw [run_bind_ok (popFrontAt_cons hi hE)]
      rw [hE, List.length_cons] at hfuel
      have hrest := @ih (Function.update E i rest)
        (by rw [Function.update_self]; exact Nat.lt_of_succ_lt_succ hfuel) (res ++ [e])
      rw [Function.update_self, Function.update_idem, List.append_assoc] at hrest
      exact hrest

/-- INTERNAL: with fewer rounds the loop does not return. -/
theorem drainAll_eq_ok {start : List Sst.SegmentReadBuf} {i fuel : ℕ} (hi : i < start.length)
    {E : ℕ → List SsTableEntry} {res out : List SsTableEntry} {bufs' : List Sst.SegmentReadBuf}
    (h : (Sst.drainAll i fuel res).run (bufsWith start E) = .ok out bufs') :
    out = res ++ E i ∧ bufs' = bufsWith start (Function.update E i []) := by
  induction fuel generalizing E res with
  | zero => cases h
  | succ fuel ih =>
    rw [Sst.drainAll] at h
    cases hE : E i with
    | nil =>
      rw [run_bind_ok (popFrontAt_nil hi hE)] at h
      cases h
      refine ⟨(List.append_nil _).symm, ?_⟩
      rw [← hE, Function.update_eq_self]
    | cons e rest =>
      rw [run_bind_ok (popFrontAt_cons hi hE)] at h
      obtain ⟨hout, hbufs⟩ := ih h
      rw [Function.update_self, List.append_assoc] at hout
      rw [Function.update_idem] at hbufs
      exact ⟨hout, hbufs⟩

/-- INTERNAL: a merge of one buffer takes all its entries.
SOURCE: level.rs:562-567 -/
theorem mergeSort_single (hsingle : bufs.length = 1) (order : Sst.IterationOrder) (fuel : ℕ) :
    (Sst.mergeSort order fuel (Sst.readBufRefs bufs)).run bufs =
      (Sst.drainAll 0 fuel []).run bufs := by
  have hrefs : Sst.readBufRefs bufs = [(0, 0)] := by
    unfold Sst.readBufRefs
    rw [hsingle]
    rfl
  have hiter : order.iter 0 [(0, 0)] = [(0, 0)] :=
    List.perm_singleton.mp (order.perm 0 [(0, 0)])
  unfold Sst.mergeSort
  rw [hrefs, hiter]
  rfl

/-! ## What a merge that returns has merged -/

/-- INTERNAL: the keys of an ascending list go up to the last one. -/
theorem le_lastKey {entries : List SsTableEntry} {k : String}
    (h : entries.Pairwise fun e f => e.key < f.key) (hlast : lastKey entries = some k) :
    ∀ e ∈ entries, e.key ≤ k := by
  intro e he
  obtain ⟨back, hback, rfl⟩ := Option.map_eq_some_iff.mp hlast
  obtain ⟨before, rfl⟩ := List.getLast?_eq_some_iff.mp hback
  obtain he | he := List.mem_append.mp he
  · exact ((List.pairwise_append.mp h).2.2 e he back (List.mem_singleton_self back)).le
  · rw [List.mem_singleton.mp he]

/-- INTERNAL: the only buffer gives up everything. -/
theorem givenUp_single (hsingle : bufs.length = 1) (hfilled : ∀ b ∈ bufs, Filled b) {m : String}
    (hm : SmallestLastKey (held bufs) m) {i : ℕ} {e : SsTableEntry} (he : e ∈ entriesAt bufs i) :
    i = 0 ∧ GivenUp (held bufs) m (entriesAt bufs i) e := by
  have hfirst : ∀ {j k}, headKey (entriesAt bufs j) = some k → j = 0 := by
    intro j k hkey
    have hj := inside_of_head hkey
    rwa [hsingle, Nat.lt_one_iff] at hj
  obtain ⟨k, hkey⟩ := headKey_of_ne_nil (List.ne_nil_of_mem he)
  obtain rfl := hfirst hkey
  refine ⟨rfl, ?_, ?_⟩
  · obtain ⟨⟨i, hi, hlast⟩, -⟩ := smallestLastKey_iff.mp hm
    rw [hsingle, Nat.lt_one_iff] at hi
    rw [hi] at hlast
    exact le_lastKey (entriesAt_ascending hfilled 0) hlast e he
  · rw [overtaken_iff hkey]
    rintro ⟨j, k', hkey', hlt, -⟩
    obtain rfl := hfirst hkey'
    rw [hkey] at hkey'
    cases hkey'
    exact lt_irrefl _ hlt

/-- INTERNAL: what a merge that returns has merged and left.
SOURCE: level.rs:558-747 -/
theorem mergeSort_eq_ok (hne : bufs ≠ []) (hfilled : ∀ b ∈ bufs, Filled b) {m : String}
    (hm : SmallestLastKey (held bufs) m) {order : Sst.IterationOrder} {fuel : ℕ}
    {merged : List SsTableEntry} {left : List Sst.SegmentReadBuf}
    (h : (Sst.mergeSort order fuel (Sst.readBufRefs bufs)).run bufs = .ok merged left) :
    left = bufsWith bufs (fun i => leftOf (held bufs) m (entriesAt bufs i)) ∧
      ∃ popped, Popped (entriesAt bufs) (fun i => leftOf (held bufs) m (entriesAt bufs i)) popped
        merged ∧ ∀ i, ∀ e ∈ popped i, GivenUp (held bufs) m (entriesAt bufs i) e := by
  have hbufs := bufsWith_entriesAt fun b hb => (hfilled b hb).accounted
  have hpos : 0 < bufs.length := List.length_pos_iff.mpr hne
  by_cases hsingle : bufs.length = 1
  · rw [mergeSort_single hsingle] at h
    rw [← hbufs] at h
    obtain ⟨hout, hleft⟩ := drainAll_eq_ok hpos h
    have hgone : Function.update (entriesAt bufs) 0 [] =
        fun i => leftOf (held bufs) m (entriesAt bufs i) := by
      funext i
      have hnone : leftOf (held bufs) m (entriesAt bufs i) = [] :=
        List.filter_eq_nil_iff.mpr fun e he => by
          simpa using (givenUp_single hsingle hfilled hm he).2
      rw [hnone]
      by_cases hi : i = 0
      · rw [hi, Function.update_self]
      · rw [Function.update_of_ne hi]
        apply entriesAt_outside
        rw [hsingle]
        exact Nat.one_le_iff_ne_zero.mpr hi
    rw [hgone] at hleft
    refine ⟨hleft, Function.update (fun _ => []) 0 (entriesAt bufs 0), ⟨fun i => ?_, ?_⟩,
      fun i e he => ?_⟩
    · rw [← congrFun hgone i]
      by_cases hi : i = 0
      · rw [hi, Function.update_self, Function.update_self, List.append_nil]
      · rw [Function.update_of_ne hi, Function.update_of_ne hi, List.nil_append]
    · rw [hout]
      exact mergedKeys_single (entriesAt_ascending hfilled 0)
    · by_cases hi : i = 0
      · rw [hi, Function.update_self] at he
        rw [hi]
        exact (givenUp_single hsingle hfilled hm he).2
      · rw [Function.update_of_ne hi] at he
        exact absurd he List.not_mem_nil
  · have hseveral : 1 < bufs.length := lt_of_le_of_ne hpos (Ne.symm hsingle)
    obtain ⟨s, c, hupTo, -, hrun⟩ := mergeSort_several hseveral hfilled hm order fuel
    rw [hrun, ← hbufs] at h
    obtain ⟨hleft, ⟨popped, htaken, hgiven⟩, -⟩ :=
      mergeLoop_eq_ok (entriesAt_ascending hfilled) hupTo h
    exact ⟨hleft, popped, htaken, fun i e he => (hgiven i e he).1⟩

/-- A merge that returns has merged what the buffers give up, and has left the rest.
SOURCE: level.rs:558-747 -/
theorem mergeSort_gives (hne : bufs ≠ []) (hfilled : ∀ b ∈ bufs, Filled b) {m : String}
    (hm : SmallestLastKey (held bufs) m) {order : Sst.IterationOrder} {fuel : ℕ}
    {merged : List SsTableEntry} {left : List Sst.SegmentReadBuf}
    (h : (Sst.mergeSort order fuel (Sst.readBufRefs bufs)).run bufs = .ok merged left) :
    MergedKeys (fun i => givenOf (held bufs) m (entriesAt bufs i)) (fun _ => True) merged ∧
      left = bufsWith bufs fun i => leftOf (held bufs) m (entriesAt bufs i) := by
  obtain ⟨hleft, popped, htaken, hgiven⟩ := mergeSort_eq_ok hne hfilled hm h
  have hpopped : popped = fun i => givenOf (held bufs) m (entriesAt bufs i) := by
    funext i
    exact (split_eq_filter (htaken.split i)
      (p := fun e => GivenUp (held bufs) m (entriesAt bufs i) e)
      (fun e he => decide_eq_true (hgiven i e he))
      fun e he => by simpa using (mem_leftOf.mp he).2).1
  rw [← hpopped]
  exact ⟨htaken.merged, hleft⟩

/-! ## When a merge returns -/

/-- INTERNAL: buffers with the same first key. -/
theorem sharedDone_iff {m : String} : SharedDone (held bufs) m ↔ ∀ i j k, i ≠ j →
    headKey (entriesAt bufs i) = some k → headKey (entriesAt bufs j) = some k →
      DoneInTime (held bufs) m (entriesAt bufs i) := by
  constructor
  · intro h i j k hne hi hj
    exact h i j _ _ hne ((held_getElem? bufs i).mpr ⟨inside_of_head hi, rfl⟩)
      ((held_getElem? bufs j).mpr ⟨inside_of_head hj, rfl⟩) (hi.trans hj.symm)
  · intro h i j entries others hne hi hj hsame
    obtain ⟨-, rfl⟩ := (held_getElem? bufs i).mp hi
    obtain ⟨-, rfl⟩ := (held_getElem? bufs j).mp hj
    intro e he
    obtain ⟨k, hkey⟩ := headKey_of_ne_nil (List.ne_nil_of_mem he)
    exact h i j k hne hkey (hsame ▸ hkey) e he

/-- INTERNAL: buffers that begin above `m` are done with in time. -/
theorem doneInTime_of_above (hfilled : ∀ b ∈ bufs, Filled b) {m k : String} {i : ℕ}
    (hkey : headKey (entriesAt bufs i) = some k) (hlt : m < k) :
    DoneInTime (held bufs) m (entriesAt bufs i) := by
  intro e he hle
  obtain ⟨f, hf, rfl⟩ := headKey_eq_some.mp hkey
  exact absurd hle (not_le.mpr (hlt.trans_le (head_le (entriesAt_ascending hfilled i) hf he)))

/-- INTERNAL: where a merge returns, the buffers that share a first key are done with in time. -/
theorem sharedDone_of_returns (hne : bufs ≠ []) (hfilled : ∀ b ∈ bufs, Filled b) {m : String}
    (hm : SmallestLastKey (held bufs) m) {order : Sst.IterationOrder} {fuel : ℕ}
    {merged : List SsTableEntry} {left : List Sst.SegmentReadBuf}
    (h : (Sst.mergeSort order fuel (Sst.readBufRefs bufs)).run bufs = .ok merged left) :
    SharedDone (held bufs) m := by
  rw [sharedDone_iff]
  intro i j k hne' hi hj
  have hpos : 0 < bufs.length := List.length_pos_iff.mpr hne
  by_cases hsingle : bufs.length = 1
  · have hlti := inside_of_head hi
    have hltj := inside_of_head hj
    omega
  · obtain ⟨s, c, hupTo, hleast, hrun⟩ := mergeSort_several
      (lt_of_le_of_ne hpos (Ne.symm hsingle)) hfilled hm order fuel
    rw [hrun, ← bufsWith_entriesAt fun b hb => (hfilled b hb).accounted] at h
    obtain ⟨-, -, hshared⟩ := mergeLoop_eq_ok (entriesAt_ascending hfilled) hupTo h
    by_cases hkm : k ≤ m
    · exact hshared i j k hne' hi hj (hleast i k hi) hkm
    · exact doneInTime_of_above hfilled hi (not_le.mp hkm)

/-- INTERNAL: and where they are, it returns. -/
theorem returns_of_sharedDone (hne : bufs ≠ []) (hfilled : ∀ b ∈ bufs, Filled b) {m : String}
    (hm : SmallestLastKey (held bufs) m) (order : Sst.IterationOrder)
    (h : SharedDone (held bufs) m) {fuel : ℕ} (hfuel : entryCount bufs (entriesAt bufs) < fuel) :
    ∃ merged left, (Sst.mergeSort order fuel (Sst.readBufRefs bufs)).run bufs =
      .ok merged left := by
  have hpos : 0 < bufs.length := List.length_pos_iff.mpr hne
  have hbufs := bufsWith_entriesAt fun b hb => (hfilled b hb).accounted
  by_cases hsingle : bufs.length = 1
  · have hcount : entryCount bufs (entriesAt bufs) = (entriesAt bufs 0).length := by
      unfold entryCount
      rw [hsingle, Finset.sum_range_one]
    have hdrain := @drainAll_eq bufs 0 fuel hpos (entriesAt bufs) (hcount ▸ hfuel) []
    rw [hbufs] at hdrain
    exact ⟨_, _, (mergeSort_single hsingle order _).trans hdrain⟩
  · obtain ⟨s, c, hupTo, -, hrun⟩ := mergeSort_several
      (lt_of_le_of_ne hpos (Ne.symm hsingle)) hfilled hm order fuel
    obtain ⟨merged, left, hloop⟩ := @mergeLoop_returns bufs m order (entriesAt bufs) s c
      (entriesAt_ascending hfilled) fuel fuel 1 hupTo
      (fun i j k hne' hi hj _ _ => sharedDone_iff.mp h i j k hne' hi hj) hfuel hfuel
    rw [hbufs] at hloop
    exact ⟨merged, left, hrun.trans hloop⟩

/-- A merge returns if and only if the buffers that share a first key are done with in time. -/
theorem mergeSort_returns_iff (order : Sst.IterationOrder) {m : String} (hne : bufs ≠ [])
    (hfilled : ∀ b ∈ bufs, Filled b) (hm : SmallestLastKey (held bufs) m) :
    MergeReturns order bufs ↔ SharedDone (held bufs) m := by
  constructor
  · rintro ⟨fuel, merged, left, hrun⟩
    exact sharedDone_of_returns hne hfilled hm hrun
  · intro hshared
    obtain ⟨merged, left, hrun⟩ :=
      returns_of_sharedDone hne hfilled hm order hshared (Nat.lt_succ_self _)
    exact ⟨_, merged, left, hrun⟩

/-! ## When all keys up to the smallest last one are merged -/

/-- INTERNAL: where all buffers are done with in time, they give up all keys up to `m`. -/
theorem givenUp_iff_of_done {lists : List (List SsTableEntry)} {m : String}
    {entries : List SsTableEntry} (h : DoneInTime lists m entries) {e : SsTableEntry}
    (he : e ∈ entries) : GivenUp lists m entries e ↔ e.key ≤ m :=
  ⟨fun hgiven => hgiven.1, fun hle => ⟨hle, h e he hle⟩⟩

/-- INTERNAL: what is done in time leaves just the entries above the limit. -/
theorem doneInTime_iff {lists : List (List SsTableEntry)} {m : String}
    {entries : List SsTableEntry} : DoneInTime lists m entries ↔
      leftOf lists m entries = entries.filter fun e => m < e.key := by
  constructor
  · intro h
    apply List.filter_congr
    intro e he
    rw [decide_eq_decide, givenUp_iff_of_done h he, not_le]
  · intro h e he hle hover
    have hleft : e ∈ leftOf lists m entries := mem_leftOf.mpr ⟨he, fun hgiven => hgiven.2 hover⟩
    rw [h, List.mem_filter, decide_eq_true_eq] at hleft
    exact absurd hle (not_le.mpr hleft.2)

/-- INTERNAL: the buffers that begin with a key of their own, and those that do not, are all. -/
theorem doneInTime_of_both {m : String} (hshared : SharedDone (held bufs) m)
    (halone : AloneDone (held bufs) m) (i : ℕ) : DoneInTime (held bufs) m (entriesAt bufs i) := by
  intro e he
  obtain ⟨k, hkey⟩ := headKey_of_ne_nil (List.ne_nil_of_mem he)
  have hi := (held_getElem? bufs i).mpr ⟨inside_of_head hkey, rfl⟩
  by_cases hother : ∃ (j : ℕ) (others : List SsTableEntry), i ≠ j ∧
      (held bufs)[j]? = some others ∧ headKey (entriesAt bufs i) = headKey others
  · obtain ⟨j, others, hne, hj, hsame⟩ := hother
    exact hshared i j _ others hne hi hj hsame e he
  · exact halone i _ hi (fun j others hne hj hsame => hother ⟨j, others, hne, hj, hsame⟩) e he

/-- INTERNAL: the buffers that are left tell what each of them was done with. -/
theorem bufsWith_eq_leftAbove {m : String} {E' : ℕ → List SsTableEntry} :
    bufsWith bufs E' = bufs.map (leftAbove m) ↔
      ∀ i < bufs.length, E' i = (entriesAt bufs i).filter fun e => m < e.key := by
  constructor
  · intro h i hi
    have hat : (bufsWith bufs E')[i]?.map Sst.SegmentReadBuf.buf =
        (bufs.map (leftAbove m))[i]?.map Sst.SegmentReadBuf.buf := by rw [h]
    rw [bufsWith_getElem?, List.getElem?_map, List.getElem?_eq_getElem hi] at hat
    rw [entriesAt_eq (List.getElem?_eq_getElem hi)]
    exact Option.some.inj hat
  · intro h
    apply List.ext_getElem?
    intro i
    rw [bufsWith_getElem?, List.getElem?_map]
    cases hb : bufs[i]? with
    | none => rfl
    | some b =>
      rw [Option.map_some, Option.map_some, h i (List.getElem?_eq_some_iff.mp hb).1,
        entriesAt_eq hb]
      rfl

/-- INTERNAL: what is merged of all keys up to `m`. -/
theorem mergedKeys_upTo {m : String} {merged : List SsTableEntry}
    (hdone : ∀ i, DoneInTime (held bufs) m (entriesAt bufs i))
    (h : MergedKeys (fun i => givenOf (held bufs) m (entriesAt bufs i)) (fun _ => True) merged) :
    MergedKeys (entriesAt bufs) (· ≤ m) merged := by
  have hmem : ∀ i e, e ∈ givenOf (held bufs) m (entriesAt bufs i) ↔
      e ∈ entriesAt bufs i ∧ e.key ≤ m := by
    intro i e
    rw [mem_givenOf]
    exact and_congr_right fun he => givenUp_iff_of_done (hdone i) he
  refine ⟨h.ascending, fun k => ?_, fun e he => ?_⟩
  · rw [h.keys k]
    constructor
    · rintro ⟨-, i, e, he, rfl⟩
      exact ⟨((hmem i e).mp he).2, i, e, ((hmem i e).mp he).1, rfl⟩
    · rintro ⟨hle, i, e, he, rfl⟩
      exact ⟨trivial, i, e, (hmem i e).mpr ⟨he, hle⟩, rfl⟩
  · obtain ⟨⟨i, hi⟩, hnewest⟩ := h.newest e he
    obtain ⟨hin, hle⟩ := (hmem i e).mp hi
    exact ⟨⟨i, hin⟩, fun j f hf hkey => hnewest j f ((hmem j f).mpr ⟨hf, hkey ▸ hle⟩) hkey⟩

/-- Whenever a merge returns it has merged the keys up to the smallest last one, if and only if the
buffers that begin with a key of their own are done with in time, too, where those that share one
are. -/
theorem mergeSort_merges_iff (order : Sst.IterationOrder) {m : String} (hne : bufs ≠ [])
    (hfilled : ∀ b ∈ bufs, Filled b) (hm : SmallestLastKey (held bufs) m) :
    MergesUpTo order bufs m ↔ (SharedDone (held bufs) m → AloneDone (held bufs) m) := by
  constructor
  · intro hmerges hshared i entries hi _
    obtain ⟨hlt, rfl⟩ := (held_getElem? bufs i).mp hi
    obtain ⟨merged, left, hrun⟩ :=
      returns_of_sharedDone hne hfilled hm order hshared (Nat.lt_succ_self _)
    obtain ⟨-, hleft⟩ := mergeSort_gives hne hfilled hm hrun
    have habove := (hmerges _ _ _ hrun).2
    rw [hleft, bufsWith_eq_leftAbove] at habove
    exact doneInTime_iff.mpr (habove i hlt)
  · intro halone fuel merged left hrun
    have hshared := sharedDone_of_returns hne hfilled hm hrun
    have hdone := doneInTime_of_both hshared (halone hshared)
    obtain ⟨hmerged, hleft⟩ := mergeSort_gives hne hfilled hm hrun
    refine ⟨mergedKeys_upTo hdone hmerged, ?_⟩
    rw [hleft, bufsWith_eq_leftAbove]
    exact fun i _ => doneInTime_iff.mp (hdone i)

/-! ### Three buffers -/

/-- INTERNAL: a map that is iterated over from its front. -/
def frontFirst : Sst.IterationOrder := ⟨fun _ readBufs => readBufs, fun _ _ => List.Perm.refl _⟩

/-- INTERNAL: a read buffer with entries that have been read. -/
def readBufOf (entries : List SsTableEntry) : Sst.SegmentReadBuf :=
  ⟨⟨[], "", .new, 0, 0, 0, 0, 0, "", ""⟩, entries, 0, framedBytes entries, 64⟩

/-- INTERNAL: read buffers with such entries. -/
def buffersOf (lists : List (List SsTableEntry)) : List Sst.SegmentReadBuf := lists.map readBufOf

/-- INTERNAL: the buffers of some lists hold these. -/
theorem held_buffersOf (lists : List (List SsTableEntry)) : held (buffersOf lists) = lists := by
  unfold held buffersOf
  rw [List.map_map]
  exact List.map_id _

/-- INTERNAL: read buffers whose entries can be checked. -/
theorem filled_of_checks {lists : List (List SsTableEntry)}
    (h : ∀ es ∈ lists, es ≠ [] ∧ (es.Pairwise fun e f => e.key < f.key) ∧ ∀ e ∈ es, e.key ≠ "") :
    ∀ b ∈ buffersOf lists, Filled b := by
  intro b hb
  obtain ⟨es, hes, rfl⟩ := List.mem_map.mp hb
  obtain ⟨hne, hasc, hkeys⟩ := h es hes
  exact ⟨rfl, hne, hasc, hkeys⟩

/-- INTERNAL: a smallest last key can be checked list by list. -/
theorem smallestLastKey_of_checks {lists : List (List SsTableEntry)} {m : String}
    (h : (∃ es ∈ lists, lastKey es = some m) ∧ ∀ es ∈ lists, ∀ k ∈ lastKey es, m ≤ k) :
    SmallestLastKey (held (buffersOf lists)) m := by
  rw [held_buffersOf]
  exact ⟨h.1, fun k ⟨es, hes, hk⟩ => h.2 es hes k hk⟩

/-- INTERNAL: the first two share their first key, and are done with it before the third begins. -/
def sharedFirst : List (List SsTableEntry) :=
  [[⟨"a", some "x", 1⟩, ⟨"b", some "x", 2⟩, ⟨"z", some "x", 3⟩],
    [⟨"a", some "y", 4⟩, ⟨"z", none, 5⟩], [⟨"c", some "w", 6⟩, ⟨"d", some "w", 7⟩]]

/-- INTERNAL: its buffers are filled. -/
theorem filled_sharedFirst : ∀ b ∈ buffersOf sharedFirst, Filled b :=
  filled_of_checks (by decide)

/-- INTERNAL: its smallest last key. -/
theorem smallestLastKey_sharedFirst : SmallestLastKey (held (buffersOf sharedFirst)) "d" :=
  smallestLastKey_of_checks (by decide)

/-- The newer "a" is merged, and "z" is left. -/
theorem mergeSort_merges_sharedFirst : MergesUpTo frontFirst (buffersOf sharedFirst) "d" := by
  have hne : buffersOf sharedFirst ≠ [] := List.cons_ne_nil _ _
  refine (mergeSort_merges_iff frontFirst hne filled_sharedFirst
    smallestLastKey_sharedFirst).mpr fun _ i entries hi _ => ?_
  have hall : ∀ es ∈ sharedFirst, DoneInTime sharedFirst "d" es := by decide
  rw [held_buffersOf] at hi ⊢
  exact hall entries (List.mem_of_getElem? hi)

/-- The loops end there. -/
theorem mergeSort_returns_sharedFirst : SharedDone (held (buffersOf sharedFirst)) "d" :=
  (mergeSort_returns_iff frontFirst (List.cons_ne_nil _ _) filled_sharedFirst
    smallestLastKey_sharedFirst).mp ⟨9, _, _, rfl⟩

/-- INTERNAL: three buffers, each of which begins before the one before it ends. -/
def interleaved : List (List SsTableEntry) :=
  [[⟨"a", some "x", 1⟩, ⟨"d", some "x", 4⟩], [⟨"b", some "x", 2⟩, ⟨"e", some "x", 5⟩],
    [⟨"c", some "x", 3⟩, ⟨"f", some "x", 6⟩]]

/-- The merge leaves "d" behind, although it is the smallest last key.
SOURCE: level.rs:637-649, 706-717 -/
theorem merge_leaves_behind : ¬∀ (order : Sst.IterationOrder) (bufs : List Sst.SegmentReadBuf)
    (m : String), bufs ≠ [] → (∀ b ∈ bufs, Filled b) → SmallestLastKey (held bufs) m →
      MergesUpTo order bufs m := by
  intro hall
  have hmerges := hall frontFirst (buffersOf interleaved) "d" (List.cons_ne_nil _ _)
    (filled_of_checks (by decide)) (smallestLastKey_of_checks (by decide)) 9
    [⟨"a", some "x", 1⟩, ⟨"b", some "x", 2⟩, ⟨"c", some "x", 3⟩] _ rfl
  obtain ⟨e, he, hkey⟩ := (hmerges.1.keys "d").mpr
    ⟨le_refl _, 0, ⟨"d", some "x", 4⟩, List.mem_cons_of_mem _ (List.mem_cons_self ..), rfl⟩
  revert e
  decide

/-- INTERNAL: two buffers with the same keys, and one that begins between them. -/
def twice : List (List SsTableEntry) :=
  [[⟨"a", some "x", 1⟩, ⟨"c", some "x", 2⟩], [⟨"a", some "y", 3⟩, ⟨"c", some "y", 4⟩],
    [⟨"b", some "z", 5⟩, ⟨"d", some "z", 6⟩]]

/-- INTERNAL: its buffers are filled. -/
theorem filled_twice : ∀ b ∈ buffersOf twice, Filled b := filled_of_checks (by decide)

/-- The round of "a" finds "c" again and again, which does not belong to it.
SOURCE: level.rs:659-704 -/
theorem merge_never_ends : ¬∀ (order : Sst.IterationOrder) (bufs : List Sst.SegmentReadBuf),
    bufs ≠ [] → (∀ b ∈ bufs, Filled b) → MergeReturns order bufs := by
  intro hall
  have hne : buffersOf twice ≠ [] := List.cons_ne_nil _ _
  have hm : SmallestLastKey (held (buffersOf twice)) "c" := smallestLastKey_of_checks (by decide)
  obtain ⟨fuel, merged, left, hrun⟩ := hall frontFirst (buffersOf twice) hne filled_twice
  have hshared := sharedDone_of_returns hne filled_twice hm hrun
  rw [held_buffersOf] at hshared
  have hdone := hshared 0 1 _ _ Nat.zero_ne_one rfl rfl rfl
  revert hdone
  decide

end

end Rkvs.Analysis

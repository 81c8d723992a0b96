import Rkvs.Analysis.BufferFill
import Rkvs.Analysis.MergeResult
import Rkvs.Library.PartialMerge

/-!
# What one merge of the read buffers takes

A full buffer begins with the first entry that it has to give, and what it has not read yet is above
its last key. So what a merge gives up of the buffers is what it gives up of all that is pending.
-/

set_option autoImplicit false

namespace Rkvs.Analysis

open Rkvs.Library Rkvs.Model Rkvs.Interface

/-! ## The first entries of lists -/

section
variable {lists : List (List SsTableEntry)} {es : List SsTableEntry} {size : ℕ} {m : String}

/-- INTERNAL: lists with entries have a smallest last key. -/
theorem exists_smallestLastKey (hne : lists ≠ []) (hlists : ∀ es ∈ lists, es ≠ []) :
    ∃ m, SmallestLastKey lists m := by
  let keys := (lists.filterMap lastKey).toFinset
  have hmem : ∀ k, k ∈ keys ↔ ∃ es ∈ lists, lastKey es = some k := by
    intro k
    rw [List.mem_toFinset, List.mem_filterMap]
  obtain ⟨es, hes⟩ := List.exists_mem_of_ne_nil _ hne
  obtain ⟨k, hk⟩ := lastKey_of_ne_nil (hlists es hes)
  have hnonempty : keys.Nonempty := ⟨k, (hmem k).mpr ⟨es, hes, hk⟩⟩
  obtain ⟨hfound, hleast⟩ := keys.isLeast_min' hnonempty
  exact ⟨keys.min' hnonempty, (hmem _).mp hfound, fun k hk => hleast ((hmem k).mpr hk)⟩

/-- INTERNAL: the first entry is read first. -/
theorem headKey_readable (h : readable size es ≠ []) : headKey (readable size es) = headKey es := by
  obtain ⟨rest, hrest⟩ := readable_prefix size es
  obtain ⟨e, more, hread⟩ := List.exists_cons_of_ne_nil h
  rw [hread] at hrest ⊢
  rw [hrest]
  rfl

/-- INTERNAL: what is given up depends on the first entries only. -/
theorem givenUp_readable (hlists : ∀ es ∈ lists, readable size es ≠ []) (hes : es ∈ lists)
    (e : SsTableEntry) :
    GivenUp (lists.map (readable size)) m (readable size es) e ↔ GivenUp lists m es e := by
  have hover : Overtaken (lists.map (readable size)) (readable size es) e.key ↔
      Overtaken lists es e.key := by
    unfold Overtaken
    rw [headKey_readable (hlists es hes)]
    refine exists_congr fun k => and_congr_right fun _ => ⟨?_, ?_⟩
    · rintro ⟨others, hmem, k', hk', hbetween⟩
      obtain ⟨fs, hfs, rfl⟩ := List.mem_map.mp hmem
      rw [headKey_readable (hlists fs hfs)] at hk'
      exact ⟨fs, hfs, k', hk', hbetween⟩
    · rintro ⟨fs, hfs, k', hk', hbetween⟩
      rw [← headKey_readable (hlists fs hfs)] at hk'
      exact ⟨_, List.mem_map_of_mem hfs, k', hk', hbetween⟩
  exact and_congr_right fun _ => not_congr hover

/-- INTERNAL: what is not read is above the smallest last key. -/
theorem above_of_unread {read rest : List SsTableEntry} (hasc : Ascending (read ++ rest))
    (hne : read ≠ []) (hm : SmallestLastKey lists m) (hread : read ∈ lists) :
    ∀ e ∈ rest, m < e.key := by
  intro e he
  have hback := List.getLast?_eq_some_getLast hne
  have hlast : lastKey read = some (read.getLast hne).key :=
    congrArg (Option.map SsTableEntry.key) hback
  have hle := hm.2 ⟨read, hread, hlast⟩
  exact hle.trans_lt ((List.pairwise_append.mp hasc).2.2 _ (List.getLast_mem hne) e he)

/-- INTERNAL: what is left of a list is what is left of its first entries, and what was not read. -/
theorem leftOf_readable {rest : List SsTableEntry} (hlists : ∀ es ∈ lists, readable size es ≠ [])
    (hm : SmallestLastKey (lists.map (readable size)) m) (hes : es ∈ lists) (hasc : Ascending es)
    (hsplit : es = readable size es ++ rest) :
    leftOf lists m es =
      leftOf (lists.map (readable size)) m (readable size es) ++ rest := by
  have habove := above_of_unread (hsplit ▸ hasc) (hlists es hes) hm (List.mem_map_of_mem hes)
  have hread : ((readable size es).filter fun e => ¬GivenUp lists m es e) =
      leftOf (lists.map (readable size)) m (readable size es) := by
    apply List.filter_congr
    intro e _
    rw [decide_eq_decide, givenUp_readable hlists hes]
  have hrest : (rest.filter fun e => ¬GivenUp lists m es e) = rest := by
    apply List.filter_eq_self.mpr
    exact fun e he => decide_eq_true fun hgiven => absurd hgiven.1 (not_le.mpr (habove e he))
  have hboth : leftOf lists m es = (readable size es ++ rest).filter
      fun e => ¬GivenUp lists m es e := by rw [← hsplit, leftOf]
  rw [hboth, List.filter_append, hread, hrest]

end

/-! ## What is taken -/

/-- INTERNAL: entries are merged from what the lists give up, the newest one of every key. -/
structure Taken (lists : List (List SsTableEntry)) (m : String) (merged : List SsTableEntry) :
    Prop where
  ascending : Ascending merged
  given : ∀ x ∈ merged, ∃ es ∈ lists, x ∈ es ∧ GivenUp lists m es x
  newest : ∀ es ∈ lists, ∀ y ∈ es, GivenUp lists m es y →
    ∃ x ∈ merged, x.key = y.key ∧ y.sequenceNumber ≤ x.sequenceNumber

section
variable {lists : List (List SsTableEntry)} {merged : List SsTableEntry} {size : ℕ} {m : String}

/-- INTERNAL: a merge covers what it has taken, and leaves the rest. -/
theorem taken_covers (h : Taken lists m merged) :
    PartlyMerged SsTableEntry.key SsTableEntry.sequenceNumber lists.flatten merged
      (lists.map (leftOf lists m)).flatten where
  done_mem x hx := by
    obtain ⟨es, hes, hmem, -⟩ := h.given x hx
    exact List.mem_flatten.mpr ⟨es, hes, hmem⟩
  left_mem y hy := by
    obtain ⟨left, hleft, hmem⟩ := List.mem_flatten.mp hy
    obtain ⟨es, hes, rfl⟩ := List.mem_map.mp hleft
    exact List.mem_flatten.mpr ⟨es, hes, (mem_leftOf.mp hmem).1⟩
  covers y hy := by
    obtain ⟨es, hes, hmem⟩ := List.mem_flatten.mp hy
    by_cases hgiven : GivenUp lists m es y
    · exact Or.inr (h.newest es hes y hmem hgiven)
    · exact Or.inl (List.mem_flatten.mpr
        ⟨_, List.mem_map_of_mem hes, mem_leftOf.mpr ⟨hmem, hgiven⟩⟩)

/-- INTERNAL: what is merged has the keys of what was given up. -/
theorem taken_below (h : Taken lists m merged) :
    (∀ es ∈ lists, ∀ e ∈ es, GivenUp lists m es e →
        ∀ fs ∈ lists, ∀ f ∈ leftOf lists m fs, e.key < f.key) ↔
      ∀ x ∈ merged, ∀ y ∈ (lists.map (leftOf lists m)).flatten, x.key < y.key := by
  constructor
  · intro hbelow x hx y hy
    obtain ⟨es, hes, hmem, hgiven⟩ := h.given x hx
    obtain ⟨left, hleft, hy⟩ := List.mem_flatten.mp hy
    obtain ⟨fs, hfs, rfl⟩ := List.mem_map.mp hleft
    exact hbelow es hes x hmem hgiven fs hfs y hy
  · intro hbelow es hes e he hgiven fs hfs f hf
    obtain ⟨x, hx, hkey, -⟩ := h.newest es hes e he hgiven
    exact hkey ▸ hbelow x hx f (List.mem_flatten.mpr ⟨_, List.mem_map_of_mem hfs, hf⟩)

/-- INTERNAL: some list gives up its first entry. -/
theorem exists_given (hlists : ∀ es ∈ lists, Ascending es)
    (hm : SmallestLastKey (lists.map (readable size)) m) :
    ∃ es ∈ lists, ∃ e ∈ es, GivenUp lists m es e := by
  obtain ⟨read, hread, hlast⟩ := hm.1
  obtain ⟨es, hes, rfl⟩ := List.mem_map.mp hread
  obtain ⟨back, hback, rfl⟩ := Option.map_eq_some_iff.mp hlast
  have hmem := List.mem_of_getLast? hback
  obtain ⟨rest, hrest⟩ := readable_prefix size es
  have hback : back ∈ es := hrest ▸ List.mem_append_left _ hmem
  obtain ⟨e, more, hsplit⟩ := List.exists_cons_of_ne_nil (List.ne_nil_of_mem hback)
  have hhead : es.head? = some e := by
    rw [hsplit]
    rfl
  refine ⟨es, hes, e, List.mem_of_head? hhead, head_le (hlists es hes) hhead hback, ?_⟩
  rintro ⟨k, hk, others, -, k', -, hlt, hle⟩
  have hkey : headKey es = some e.key := congrArg (Option.map SsTableEntry.key) hhead
  rw [Option.mem_def, hkey] at hk
  cases hk
  exact absurd hle (not_le.mpr hlt)

/-- INTERNAL: so something is merged. -/
theorem taken_ne_nil (h : Taken lists m merged) (hlists : ∀ es ∈ lists, Ascending es)
    (hm : SmallestLastKey (lists.map (readable size)) m) : merged ≠ [] := by
  obtain ⟨es, hes, e, he, hgiven⟩ := exists_given hlists hm
  obtain ⟨x, hx, -⟩ := h.newest es hes e he hgiven
  exact List.ne_nil_of_mem hx

/-- INTERNAL: and less is left. -/
theorem leftOf_length_lt (hlists : ∀ es ∈ lists, Ascending es)
    (hm : SmallestLastKey (lists.map (readable size)) m) :
    (lists.map (leftOf lists m)).flatten.length < lists.flatten.length := by
  obtain ⟨es, hes, e, he, hgiven⟩ := exists_given hlists hm
  rw [List.length_flatten, List.length_flatten, List.map_map]
  apply List.sum_lt_sum _ _ (fun fs _ => List.length_filter_le _ _)
  refine ⟨es, hes, ?_⟩
  apply List.length_filter_lt_length_iff_exists.mpr
  exact ⟨e, he, by simpa using hgiven⟩

/-- INTERNAL: the smallest last key of a round is the only one, so a merge is in turn if and only if
its first round is, and the others are. -/
theorem mergeInTurn_iff (hm : SmallestLastKey (lists.map (readable size)) m) :
    MergeInTurn size lists ↔
      (∀ es ∈ lists, ∀ e ∈ es, GivenUp lists m es e →
        ∀ fs ∈ lists, ∀ f ∈ leftOf lists m fs, e.key < f.key) ∧
      MergeInTurn size ((lists.map (leftOf lists m)).filter (· ≠ [])) := by
  constructor
  · intro h
    cases h with
    | done =>
      obtain ⟨entries, hentries, -⟩ := hm.1
      exact absurd hentries List.not_mem_nil
    | round hm' habove hrest =>
      obtain rfl := hm.unique hm'
      exact ⟨habove, hrest⟩
  · exact fun ⟨habove, hrest⟩ => .round hm habove hrest

end

/-! ## A merge of full buffers -/

section
variable {maxSize : ℕ} {bufs : List Sst.SegmentReadBuf} {m : String}

/-- INTERNAL: a buffer with entries can be merged. -/
theorem filled_of_reading {b : Sst.SegmentReadBuf} (h : Reading maxSize b) (hne : b.buf ≠ [])
    (hkeys : ∀ e ∈ pending b, e.key ≠ "") : Filled b where
  accounted := h.accounted
  nonempty := hne
  ascending := (List.pairwise_append.mp (pending_ascending h)).1
  keys e he := hkeys e (List.mem_append_left _ he)

/-- INTERNAL: a buffer without its first entries.
SOURCE: level/segment.rs:641-649 -/
theorem reading_suffix {b : Sst.SegmentReadBuf} (h : Reading maxSize b)
    {popped rest : List SsTableEntry} (hsplit : b.buf = popped ++ rest) :
    Reading maxSize (withEntries b rest) ∧ pending (withEntries b rest) = rest ++ unread b := by
  obtain ⟨read, hstored, hoffset⟩ := h.stored
  have hall : read ++ popped ++ pending (withEntries b rest) = read ++ pending b := by
    unfold pending
    rw [hsplit, List.append_assoc, List.append_assoc]
    rfl
  have hbytes := congrArg framedBytes hsplit
  rw [framedBytes_append, ← h.accounted] at hbytes
  have hle := h.size_le
  refine ⟨⟨⟨read ++ popped, hall ▸ hstored, ?_⟩, h.short, rfl, ?_, h.maxSize⟩, rfl⟩
  · rw [List.append_assoc]
    exact hsplit ▸ hoffset
  · show framedBytes rest ≤ maxSize
    omega

/-- INTERNAL: full buffers hold the first entries of what they have to give. -/
theorem held_of_full (h : ∀ b ∈ bufs, Full maxSize b) :
    held bufs = (bufs.map pending).map (readable maxSize) := by
  unfold held
  rw [List.map_map]
  exact List.map_congr_left fun b hb => (h b hb).full

/-- INTERNAL: from a full buffer something can be read. -/
theorem readable_of_full (h : ∀ b ∈ bufs, Full maxSize b) :
    ∀ es ∈ bufs.map pending, readable maxSize es ≠ [] := by
  intro es hes
  obtain ⟨b, hb, rfl⟩ := List.mem_map.mp hes
  rw [← (h b hb).full]
  exact (h b hb).nonempty

/-- INTERNAL: what is left of a full buffer. -/
theorem leftOf_full (h : ∀ b ∈ bufs, Full maxSize b)
    (hm : SmallestLastKey ((bufs.map pending).map (readable maxSize)) m) {b : Sst.SegmentReadBuf}
    (hb : b ∈ bufs) :
    leftOf (bufs.map pending) m (pending b) = leftOf (held bufs) m b.buf ++ unread b := by
  have hsplit : pending b = readable maxSize (pending b) ++ unread b := by
    rw [← (h b hb).full]
    rfl
  rw [leftOf_readable (readable_of_full h) hm (List.mem_map_of_mem hb)
    (pending_ascending (h b hb).reading) hsplit, ← held_of_full h, ← (h b hb).full]

/-- INTERNAL: what a full buffer gives up. -/
theorem givenUp_full (h : ∀ b ∈ bufs, Full maxSize b) {b : Sst.SegmentReadBuf} (hb : b ∈ bufs)
    (e : SsTableEntry) :
    GivenUp (held bufs) m b.buf e ↔ GivenUp (bufs.map pending) m (pending b) e := by
  rw [held_of_full h, (h b hb).full]
  exact givenUp_readable (readable_of_full h) (List.mem_map_of_mem hb) e

/-- A merge of full buffers takes what is given up of all that is pending, and leaves the rest.
SOURCE: level.rs:558-747 -/
theorem mergeSort_takes (hne : bufs ≠ []) (h : ∀ b ∈ bufs, Full maxSize b)
    (hkeys : ∀ es ∈ bufs.map pending, ∀ e ∈ es, e.key ≠ "")
    (hm : SmallestLastKey ((bufs.map pending).map (readable maxSize)) m)
    {order : Sst.IterationOrder} {fuel : ℕ} {merged : List SsTableEntry}
    {left : List Sst.SegmentReadBuf}
    (hrun : (Sst.mergeSort order fuel (Sst.readBufRefs bufs)).run bufs = .ok merged left) :
    Taken (bufs.map pending) m merged ∧ (∀ b ∈ left, Reading maxSize b) ∧
      left.map pending = (bufs.map pending).map (leftOf (bufs.map pending) m) := by
  have hfilled : ∀ b ∈ bufs, Filled b := fun b hb => filled_of_reading (h b hb).reading
    (h b hb).nonempty (hkeys _ (List.mem_map_of_mem hb))
  have hheld : SmallestLastKey (held bufs) m := held_of_full h ▸ hm
  obtain ⟨rfl, popped, htaken, -⟩ := mergeSort_eq_ok hne hfilled hheld hrun
  obtain ⟨hmerged, -⟩ := mergeSort_gives hne hfilled hheld hrun
  have hsuffix : ∀ i b, bufs[i]? = some b →
      Reading maxSize (withEntries b (leftOf (held bufs) m (entriesAt bufs i))) ∧
        pending (withEntries b (leftOf (held bufs) m (entriesAt bufs i))) =
          leftOf (bufs.map pending) m (pending b) := by
    intro i b hi
    have hb := List.mem_of_getElem? hi
    have hsplit := htaken.split i
    rw [entriesAt_eq hi] at hsplit ⊢
    rw [leftOf_full h hm hb]
    exact reading_suffix (h b hb).reading hsplit
  refine ⟨⟨hmerged.ascending, fun x hx => ?_, fun es hes y hy hgiven => ?_⟩, fun b hb => ?_, ?_⟩
  · obtain ⟨⟨i, hi⟩, -⟩ := hmerged.newest x hx
    obtain ⟨hin, hgiven⟩ := mem_givenOf.mp hi
    obtain ⟨k, hkey⟩ := headKey_of_ne_nil (List.ne_nil_of_mem hin)
    have hb := List.getElem?_eq_getElem (inside_of_head hkey)
    rw [entriesAt_eq hb] at hin hgiven
    have hmem := List.mem_of_getElem? hb
    exact ⟨_, List.mem_map_of_mem hmem, List.mem_append_left _ hin,
      (givenUp_full h hmem x).mp hgiven⟩
  · obtain ⟨b, hb, rfl⟩ := List.mem_map.mp hes
    obtain ⟨i, hi⟩ := List.mem_iff_getElem?.mp hb
    have hin : y ∈ b.buf := by
      obtain hin | hunread := List.mem_append.mp hy
      · exact hin
      · have hmem : b.buf ∈ (bufs.map pending).map (readable maxSize) := by
          rw [← held_of_full h]
          exact List.mem_map_of_mem hb
        have habove := above_of_unread (pending_ascending (h b hb).reading) (h b hb).nonempty hm
          hmem y hunread
        exact absurd hgiven.1 (not_le.mpr habove)
    have hpopped : y ∈ givenOf (held bufs) m (entriesAt bufs i) := by
      rw [entriesAt_eq hi]
      exact mem_givenOf.mpr ⟨hin, (givenUp_full h hb y).mpr hgiven⟩
    obtain ⟨x, hx, hkey⟩ := (hmerged.keys y.key).mpr ⟨trivial, i, y, hpopped, rfl⟩
    exact ⟨x, hx, hkey, (hmerged.newest x hx).2 i y hpopped hkey.symm⟩
  · obtain ⟨i, hi⟩ := List.mem_iff_getElem?.mp hb
    rw [bufsWith_getElem?] at hi
    obtain ⟨b₀, hb₀, rfl⟩ := Option.map_eq_some_iff.mp hi
    exact (hsuffix i b₀ hb₀).1
  · apply List.ext_getElem?
    intro i
    rw [List.getElem?_map, bufsWith_getElem?, List.getElem?_map, List.getElem?_map]
    cases hi : bufs[i]? with
    | none => rfl
    | some b => exact congrArg some (hsuffix i b hi).2

/-- INTERNAL: the buffers hold no more than is pending. -/
theorem entryCount_le_pending :
    entryCount bufs (entriesAt bufs) ≤ (bufs.map pending).flatten.length := by
  induction bufs using List.reverseRecOn with
  | nil => exact Nat.zero_le _
  | append_singleton bufs b ih =>
    have hlast : entriesAt (bufs ++ [b]) bufs.length = b.buf :=
      entriesAt_eq (List.getElem?_concat_length ..)
    have hbefore : ∀ i ∈ Finset.range bufs.length, (entriesAt (bufs ++ [b]) i).length =
        (entriesAt bufs i).length := by
      intro i hi
      unfold entriesAt
      rw [List.getElem?_append_left (Finset.mem_range.mp hi)]
    have hbuf : b.buf.length ≤ (pending b).length := (List.prefix_append ..).length_le
    unfold entryCount at ih ⊢
    rw [List.length_append, List.length_singleton, Finset.sum_range_succ, hlast,
      Finset.sum_congr rfl hbefore, List.map_append, List.flatten_append, List.map_singleton,
      List.flatten_singleton, List.length_append]
    omega

/-- INTERNAL: where no key occurs twice no two buffers begin with the same one. -/
theorem sharedDone_of_distinct
    (hnodup : ((bufs.map pending).flatten.map SsTableEntry.key).Nodup) (m : String) :
    SharedDone (held bufs) m := by
  rw [sharedDone_iff]
  intro i j k hij hi hj
  exfalso
  rw [List.map_flatten, List.nodup_flatten, List.map_map, List.pairwise_map] at hnodup
  have hfirst : ∀ {n}, headKey (entriesAt bufs n) = some k → ∃ hn : n < bufs.length,
      k ∈ (pending bufs[n]).map SsTableEntry.key := by
    intro n hkey
    have hn := inside_of_head hkey
    obtain ⟨e, he, rfl⟩ := headKey_eq_some.mp hkey
    rw [entriesAt_eq (List.getElem?_eq_getElem hn)] at he
    exact ⟨hn, List.mem_map_of_mem (List.mem_append_left _ (List.mem_of_head? he))⟩
  obtain ⟨hi, hki⟩ := hfirst hi
  obtain ⟨hj, hkj⟩ := hfirst hj
  obtain hlt | hlt := Nat.lt_or_gt_of_ne hij
  · exact List.pairwise_iff_getElem.mp hnodup.2 i j hi hj hlt hki hkj
  · exact List.pairwise_iff_getElem.mp hnodup.2 j i hj hi hlt hkj hki

/-- Where no key occurs twice a merge returns, whatever order the map has.
SOURCE: level.rs:558-747 -/
theorem mergeSort_returns_of_distinct (hne : bufs ≠ []) (h : ∀ b ∈ bufs, Full maxSize b)
    (hkeys : ∀ es ∈ bufs.map pending, ∀ e ∈ es, e.key ≠ "")
    (hnodup : ((bufs.map pending).flatten.map SsTableEntry.key).Nodup)
    (hm : SmallestLastKey ((bufs.map pending).map (readable maxSize)) m)
    (order : Sst.IterationOrder) {fuel : ℕ} (hfuel : (bufs.map pending).flatten.length < fuel) :
    ∃ merged left, (Sst.mergeSort order fuel (Sst.readBufRefs bufs)).run bufs =
      .ok merged left := by
  have hfilled : ∀ b ∈ bufs, Filled b := fun b hb => filled_of_reading (h b hb).reading
    (h b hb).nonempty (hkeys _ (List.mem_map_of_mem hb))
  apply returns_of_sharedDone hne hfilled (held_of_full h ▸ hm) order
  · exact sharedDone_of_distinct hnodup m
  · exact entryCount_le_pending.trans_lt hfuel

end

end Rkvs.Analysis

import Rkvs.Analysis.MergeOutput
import Rkvs.Analysis.MergeStep

/-!
# The rounds of a merge

Every round of a merge takes some of what is pending, and writes it behind what was written before,
until nothing is pending. So a merge writes one list of entries that covers those of its segments.
The list is in the order of the keys if and only if the merge is in turn.
-/

set_option autoImplicit false

namespace Rkvs.Analysis

open Rkvs.Library Rkvs.Model Rkvs.Interface

/-! ## What the rounds write -/

/-- INTERNAL: a list of entries that the rounds of a merge may write. -/
structure MergedFrom (size : ℕ) (lists : List (List SsTableEntry)) (entries : List SsTableEntry) :
    Prop where
  covers : PartlyMerged SsTableEntry.key SsTableEntry.sequenceNumber lists.flatten entries []
  inTurn : MergeInTurn size lists ↔ Ascending entries

section
variable {size : ℕ} {lists : List (List SsTableEntry)} {m : String}
  {merged entries : List SsTableEntry}

/-- INTERNAL: nothing is merged from nothing. -/
theorem MergedFrom.nil : MergedFrom size [] [] :=
  ⟨PartlyMerged.start, iff_of_true .done List.Pairwise.nil⟩

/-- INTERNAL: a round is put in front of the others. -/
theorem MergedFrom.round (hm : SmallestLastKey (lists.map (readable size)) m)
    (htaken : Taken lists m merged)
    (h : MergedFrom size ((lists.map (leftOf lists m)).filter (· ≠ [])) entries) :
    MergedFrom size lists (merged ++ entries) := by
  have hrest := h.covers
  rw [List.flatten_filter_ne_nil] at hrest
  refine ⟨(taken_covers htaken).append hrest, ?_⟩
  have horder := hrest.pairwise_append_iff merged
  unfold Ascending at *
  rw [mergeInTurn_iff hm, taken_below htaken, h.inTurn, Ascending, horder]
  exact ⟨fun h => ⟨htaken.ascending, h.2, h.1⟩, fun h => ⟨h.2.2, h.2.1⟩⟩

end

/-! ## One round -/

/-- INTERNAL: full buffers, whose entries have keys and fit into a buffer. -/
structure Loaded (maxSize : ℕ) (bufs : List Sst.SegmentReadBuf) : Prop where
  full : ∀ b ∈ bufs, Full maxSize b
  keys : ∀ es ∈ bufs.map pending, ∀ e ∈ es, e.key ≠ ""
  fits : ∀ es ∈ bufs.map pending, ∀ e ∈ es, e.len + 4 ≤ maxSize

section
variable {maxSize : ℕ} {bufs : List Sst.SegmentReadBuf}

/-- INTERNAL: filled buffers have a smallest last key. -/
theorem Loaded.exists_smallest (h : Loaded maxSize bufs) (hne : bufs ≠ []) :
    ∃ m, SmallestLastKey ((bufs.map pending).map (readable maxSize)) m := by
  apply exists_smallestLastKey
  · simpa using hne
  · intro read hread
    obtain ⟨es, hes, rfl⟩ := List.mem_map.mp hread
    exact readable_of_full h.full es hes

/-- INTERNAL: the entries to come ascend in each of the buffers. -/
theorem pending_of_full (h : ∀ b ∈ bufs, Full maxSize b) :
    ∀ es ∈ bufs.map pending, Ascending es := by
  intro es hes
  obtain ⟨b, hb, rfl⟩ := List.mem_map.mp hes
  exact pending_ascending (h b hb).reading

/-- INTERNAL: after a merge the buffers are filled again, and the next round goes on with less.
SOURCE: level.rs:519, 536-545 -/
theorem round_goes_on (h : Loaded maxSize bufs) (hne : bufs ≠ []) (hmax : maxSize < 2 ^ 64)
    {order : Sst.IterationOrder} {limit : ℕ} {merged : List SsTableEntry}
    {left : List Sst.SegmentReadBuf}
    (hrun : (Sst.mergeSort order limit (Sst.readBufRefs bufs)).run bufs = .ok merged left) :
    ∃ bufs', Sst.fillBufs left = .ok bufs' ∧ Loaded maxSize bufs' ∧
      (bufs'.map pending).flatten.Sublist (bufs.map pending).flatten ∧
      (bufs'.map pending).flatten.length < (bufs.map pending).flatten.length ∧ merged ≠ [] ∧
      ∀ entries, MergedFrom maxSize (bufs'.map pending) entries →
        MergedFrom maxSize (bufs.map pending) (merged ++ entries) := by
  obtain ⟨m, hm⟩ := h.exists_smallest hne
  obtain ⟨htaken, hreading, hleft⟩ := mergeSort_takes hne h.full h.keys hm hrun
  have hinside : ∀ {P : SsTableEntry → Prop}, (∀ es ∈ bufs.map pending, ∀ e ∈ es, P e) →
      ∀ es ∈ left.map pending, ∀ e ∈ es, P e := by
    intro P hall es hes e he
    rw [hleft] at hes
    obtain ⟨fs, hfs, rfl⟩ := List.mem_map.mp hes
    exact hall fs hfs e (mem_leftOf.mp he).1
  obtain ⟨bufs', hfill, hfull, hpending⟩ := fillBufs_ok hreading hmax (hinside h.fits)
  have hsub : ∀ es ∈ bufs'.map pending, es ∈ left.map pending := by
    intro es hes
    rw [hpending] at hes
    exact List.mem_of_mem_filter hes
  have hall : (bufs'.map pending).flatten =
      ((bufs.map pending).map (leftOf (bufs.map pending) m)).flatten := by
    rw [hpending, List.flatten_filter_ne_nil, hleft]
  have hasc := pending_of_full h.full
  refine ⟨bufs', hfill, ⟨hfull, fun es hes => hinside h.keys es (hsub es hes),
    fun es hes => hinside h.fits es (hsub es hes)⟩, ?_, ?_, taken_ne_nil htaken hasc hm,
    fun entries hentries => ?_⟩
  · rw [hall, ← List.flatMap_def, ← List.flatMap_id]
    exact List.Sublist.flatMap_right _ fun _ _ => List.filter_sublist
  · rw [hall]
    exact leftOf_length_lt hasc hm
  · rw [hpending, hleft] at hentries
    exact .round hm htaken hentries

end

/-! ## All rounds -/

section
variable {targetSize : ℕ} {level : Sst.PartitionedLevel}

/-- INTERNAL: entries are written one after the other.
SOURCE: level.rs:520-535 -/
theorem writeBuf_append (es fs : List SsTableEntry) (out : Sst.Output) :
    Sst.writeBuf targetSize level (es ++ fs) out = (do
      let out ← Sst.writeBuf targetSize level es out
      Sst.writeBuf targetSize level fs out) := by
  induction es generalizing out with
  | nil => rw [List.nil_append, Sst.writeBuf, pure_bind]
  | cons e es ih =>
    rw [List.cons_append, Sst.writeBuf, Sst.writeBuf, bind_assoc]
    congr 1
    funext reached
    split
    · simp only [bind_assoc, ih]
    · simp only [bind_assoc, ih]

variable {maxSize : ℕ} {bufs : List Sst.SegmentReadBuf} {orders : ℕ → Sst.IterationOrder}
  {limit fuel : ℕ}

/-- INTERNAL: a round of a merge is its merge, and what it writes.
SOURCE: level.rs:512-546 -/
theorem mergeRounds_round (hne : bufs ≠ []) {merged : List SsTableEntry}
    {left bufs' : List Sst.SegmentReadBuf}
    (hsort : (Sst.mergeSort (orders fuel) limit (Sst.readBufRefs bufs)).run bufs = .ok merged left)
    (hfill : Sst.fillBufs left = .ok bufs') (out : Sst.Output) :
    Sst.mergeRounds orders targetSize level limit (fuel + 1) bufs out = (do
      let out ← Sst.writeBuf targetSize level merged out
      Sst.mergeRounds orders targetSize level limit fuel bufs' out) := by
  have hnot : bufs.isEmpty = false := by simpa using hne
  rw [Sst.mergeRounds, hnot, if_neg Bool.false_ne_true, hsort]
  dsimp only
  rw [hfill]
  rfl

/-- The rounds of a merge that returns have written one list of entries. The induction is on the
rounds.
SOURCE: level.rs:512-546 -/
theorem mergeRounds_eq_ok (hmax : maxSize < 2 ^ 64) (h : Loaded maxSize bufs)
    {out out' : Sst.Output} {d d' : Dir}
    (hrun : (Sst.mergeRounds orders targetSize level limit fuel bufs out).run d = .ok out' d') :
    ∃ entries, MergedFrom maxSize (bufs.map pending) entries ∧
      (Sst.writeBuf targetSize level entries out).run d = .ok out' d' := by
  induction fuel generalizing bufs d out with
  | zero => cases hrun
  | succ fuel ih =>
    by_cases hne : bufs = []
    · subst hne
      exact ⟨[], MergedFrom.nil, hrun⟩
    · cases hsort : (Sst.mergeSort (orders fuel) limit (Sst.readBufRefs bufs)).run bufs with
      | error e left =>
        have hnot : bufs.isEmpty = false := by simpa using hne
        rw [Sst.mergeRounds, hnot, if_neg Bool.false_ne_true, hsort] at hrun
        cases hrun
      | ok merged left =>
        obtain ⟨bufs', hfill, hloaded, -, -, -, hround⟩ := round_goes_on h hne hmax hsort
        rw [mergeRounds_round hne hsort hfill] at hrun
        obtain ⟨out₁, d₁, hwrite, hrest⟩ := run_bind_eq_ok hrun
        obtain ⟨entries, hentries, hmore⟩ := ih hloaded hrest
        refine ⟨merged ++ entries, hround entries hentries, ?_⟩
        rw [writeBuf_append]
        exact (run_bind_ok hwrite).trans hmore

/-- Where no key occurs twice the rounds return if the entries can be written. The induction is on
the rounds; in each of them the entries that are pending get fewer.
SOURCE: level.rs:512-546 -/
theorem mergeRounds_of_distinct (hmax : maxSize < 2 ^ 64) (h : Loaded maxSize bufs)
    (hnodup : ((bufs.map pending).flatten.map SsTableEntry.key).Nodup)
    (hlimit : (bufs.map pending).flatten.length < limit)
    (hfuel : (bufs.map pending).flatten.length < fuel) :
    ∃ entries, MergedFrom maxSize (bufs.map pending) entries ∧ ∀ out out' d d',
      (Sst.writeBuf targetSize level entries out).run d = .ok out' d' →
        (Sst.mergeRounds orders targetSize level limit fuel bufs out).run d = .ok out' d' := by
  induction fuel generalizing bufs with
  | zero => exact absurd hfuel (Nat.not_lt_zero _)
  | succ fuel ih =>
    by_cases hne : bufs = []
    · subst hne
      exact ⟨[], MergedFrom.nil, fun out out' d d' hwrite => hwrite⟩
    · obtain ⟨m, hm⟩ := h.exists_smallest hne
      obtain ⟨merged, left, hsort⟩ := mergeSort_returns_of_distinct hne h.full h.keys hnodup hm
        (orders fuel) hlimit
      obtain ⟨bufs', hfill, hloaded, hsub, hfewer, -, hround⟩ := round_goes_on h hne hmax hsort
      obtain ⟨entries, hentries, hrest⟩ := ih hloaded (hnodup.sublist (hsub.map _))
        (hfewer.trans hlimit) (Nat.lt_of_lt_of_le hfewer (Nat.le_of_lt_succ hfuel))
      refine ⟨merged ++ entries, hround entries hentries, fun out out' d d' hwrite => ?_⟩
      rw [writeBuf_append] at hwrite
      obtain ⟨out₁, d₁, hfirst, hmore⟩ := run_bind_eq_ok hwrite
      rw [mergeRounds_round hne hsort hfill]
      exact (run_bind_ok hfirst).trans (hrest out₁ out' d₁ d' hmore)

end

/-! ## Merges in turn -/

/-- INTERNAL: all keys of one list are below all keys of another. -/
def KeysApart (es fs : List SsTableEntry) : Prop :=
  (∀ e ∈ es, ∀ f ∈ fs, e.key < f.key) ∨ ∀ e ∈ es, ∀ f ∈ fs, f.key < e.key

section
variable {size : ℕ} {lists : List (List SsTableEntry)} {m : String}

/-- INTERNAL: a list is not overtaken by one that is below or above it. -/
theorem not_overtaken_of_apart
    (hapart : ∀ es ∈ lists, ∀ fs ∈ lists, es = fs ∨ KeysApart es fs) {es : List SsTableEntry}
    (hes : es ∈ lists) {e : SsTableEntry} (he : e ∈ es) : ¬Overtaken lists es e.key := by
  rintro ⟨k, hk, fs, hfs, k', hk', hlt, hle⟩
  obtain ⟨first, hfirst, rfl⟩ := headKey_eq_some.mp hk
  obtain ⟨other, hother, rfl⟩ := headKey_eq_some.mp hk'
  obtain rfl | hbelow | habove := hapart es hes fs hfs
  · cases hfirst.symm.trans hother
    exact lt_irrefl _ hlt
  · exact absurd hle (not_le.mpr (hbelow e he other (List.mem_of_head? hother)))
  · exact lt_asymm hlt (habove first (List.mem_of_head? hfirst) other (List.mem_of_head? hother))

/-- Lists of which each is below or above every other are merged in turn. The induction is on the
number of entries.
SOURCE: level.rs:512-546 -/
theorem mergeInTurn_of_apart (hlists : ∀ es ∈ lists, Ascending es)
    (hfull : ∀ es ∈ lists, readable size es ≠ [])
    (hfits : ∀ es ∈ lists, ∀ e ∈ es, e.len + 4 ≤ size)
    (hapart : ∀ es ∈ lists, ∀ fs ∈ lists, es = fs ∨ KeysApart es fs) : MergeInTurn size lists := by
  generalize hcount : lists.flatten.length = count
  induction count using Nat.strong_induction_on generalizing lists with
  | _ count ih =>
    by_cases hne : lists = []
    · subst hne
      exact .done
    obtain ⟨m, hm⟩ := @exists_smallestLastKey (lists.map (readable size)) (by simpa using hne)
      (fun read hread => by
        obtain ⟨es, hes, rfl⟩ := List.mem_map.mp hread
        exact hfull es hes)
    have hgiven : ∀ es ∈ lists, ∀ e ∈ es, GivenUp lists m es e ↔ e.key ≤ m := fun es hes e he =>
      ⟨fun h => h.1, fun hle => ⟨hle, not_overtaken_of_apart hapart hes he⟩⟩
    have hrest : ∀ es ∈ (lists.map (leftOf lists m)).filter (· ≠ []),
        es ≠ [] ∧ ∃ fs ∈ lists, es = leftOf lists m fs := by
      intro es hes
      obtain ⟨hmem, hsome⟩ := List.mem_filter.mp hes
      obtain ⟨fs, hfs, rfl⟩ := List.mem_map.mp hmem
      exact ⟨of_decide_eq_true hsome, fs, hfs, rfl⟩
    refine .round hm (fun es hes e he hup fs hfs f hf => ?_)
      (ih _ ?_ (fun es hes => ?_) (fun es hes => ?_) (fun es hes e he => ?_)
        (fun es hes fs hfs => ?_) rfl)
    · obtain ⟨hmem, hnot⟩ := mem_leftOf.mp hf
      rw [hgiven fs hfs f hmem] at hnot
      exact hup.1.trans_lt (not_le.mp hnot)
    · rw [List.flatten_filter_ne_nil, ← hcount]
      exact leftOf_length_lt hlists hm
    · obtain ⟨-, fs, hfs, rfl⟩ := hrest es hes
      exact (hlists fs hfs).sublist List.filter_sublist
    · obtain ⟨hsome, fs, hfs, rfl⟩ := hrest es hes
      exact fun hnil => hsome ((readable_eq_nil fun e he =>
        hfits fs hfs e (mem_leftOf.mp he).1).mp hnil)
    · obtain ⟨-, fs, hfs, rfl⟩ := hrest es hes
      exact hfits fs hfs e (mem_leftOf.mp he).1
    · obtain ⟨-, es', hes', rfl⟩ := hrest es hes
      obtain ⟨-, fs', hfs', rfl⟩ := hrest fs hfs
      refine (hapart es' hes' fs' hfs').imp (fun hsame => by rw [hsame]) (Or.imp ?_ ?_)
      · exact fun h e he f hf => h e (mem_leftOf.mp he).1 f (mem_leftOf.mp hf).1
      · exact fun h e he f hf => h e (mem_leftOf.mp he).1 f (mem_leftOf.mp hf).1

end

/-! ## The segments of a merge -/

section
variable {level : Sst.PartitionedLevel} {segments : List Sst.Segment}

/-- INTERNAL: the length of a buffer is a machine number.
SOURCE: level.rs:483 -/
theorem readBufLen_lt (segments : List Sst.Segment) :
    Sst.MERGE_BUF_MAX_TOTAL_SIZE / segments.length + 1 < 2 ^ 64 := by
  have hle := Nat.div_le_self Sst.MERGE_BUF_MAX_TOTAL_SIZE segments.length
  have hsize : Sst.MERGE_BUF_MAX_TOTAL_SIZE = 1024 * 1024 * 10 := rfl
  omega

/-- INTERNAL: a whole segment can be read. -/
theorem legible_of_whole {s : Sst.Segment} (h : Whole s) : Legible s := opened_of_stored h

/-- INTERNAL: the entries of whole segments can be encoded. -/
theorem entryFits_of_whole (hwhole : ∀ s ∈ segments, Whole s) :
    ∀ e ∈ allEntries segments, EntryFits e := by
  intro e he
  obtain ⟨s, hs, hes⟩ := mem_allEntries.mp he
  exact (hwhole s hs).fits e hes

/-- INTERNAL: the entries of some segments, one segment after the other. -/
theorem allEntries_flatten : (segments.map entriesOf).flatten = allEntries segments :=
  (List.flatMap_def ..).symm

/-- INTERNAL: what holds of all entries holds of those of each segment. -/
theorem of_allEntries {P : SsTableEntry → Prop} (h : ∀ e ∈ allEntries segments, P e) :
    ∀ es ∈ segments.map entriesOf, ∀ e ∈ es, P e := by
  intro es hes e he
  obtain ⟨s, hs, rfl⟩ := List.mem_map.mp hes
  exact h e (mem_allEntries.mpr ⟨s, hs, he⟩)

/-- Segments with disjoint key ranges are merged in turn.
SOURCE: level.rs:479-555 -/
theorem mergesInTurn_of_apart (h : Mergeable segments)
    (hapart : ∀ s ∈ segments, ∀ t ∈ segments, s = t ∨ KeysApart (entriesOf s) (entriesOf t)) :
    MergesInTurn segments := by
  have hfits := of_allEntries h.fits
  refine mergeInTurn_of_apart (fun es hes => ?_) (fun es hes => ?_) hfits fun es hes fs hfs => ?_
  · obtain ⟨s, hs, rfl⟩ := List.mem_map.mp hes
    exact (h.whole s hs).ascending
  · obtain ⟨s, hs, rfl⟩ := List.mem_map.mp hes
    exact fun hnil => legible_ne_nil (legible_of_whole (h.whole s hs))
      ((readable_eq_nil (hfits _ hes)).mp hnil)
  · obtain ⟨s, hs, rfl⟩ := List.mem_map.mp hes
    obtain ⟨t, ht, rfl⟩ := List.mem_map.mp hfs
    exact (hapart s hs t ht).imp_left (congrArg entriesOf)

/-- INTERNAL: one segment alone merges in turn. -/
theorem mergesInTurn_single {s : Sst.Segment} (h : Mergeable [s]) : MergesInTurn [s] := by
  apply mergesInTurn_of_apart h
  intro t ht u hu
  rw [List.mem_singleton.mp ht, List.mem_singleton.mp hu]
  exact Or.inl rfl

/-- INTERNAL: the buffers are filled for the first time.
SOURCE: level.rs:483-510 -/
theorem fillBufs_mergeable (h : Mergeable segments) :
    ∃ bufs, Sst.fillBufs (segments.map fun s =>
        .new s (Sst.MERGE_BUF_MAX_TOTAL_SIZE / segments.length + 1)) = .ok bufs ∧
      Loaded (Sst.MERGE_BUF_MAX_TOTAL_SIZE / segments.length + 1) bufs ∧
      bufs.map pending = segments.map entriesOf := by
  have hlt := readBufLen_lt segments
  have hfits := of_allEntries h.fits
  generalize Sst.MERGE_BUF_MAX_TOTAL_SIZE / segments.length + 1 = readBufLen at hfits hlt ⊢
  have hpending : (segments.map (Sst.SegmentReadBuf.new · readBufLen)).map pending =
      segments.map entriesOf := by
    rw [List.map_map]
    exact List.map_congr_left fun s hs => (reading_new (h.whole s hs) (h.short s hs) readBufLen).2
  have hreading : ∀ b ∈ segments.map (Sst.SegmentReadBuf.new · readBufLen),
      Reading readBufLen b := by
    intro b hb
    obtain ⟨s, hs, rfl⟩ := List.mem_map.mp hb
    exact (reading_new (h.whole s hs) (h.short s hs) readBufLen).1
  obtain ⟨bufs, hfill, hfull, hsame⟩ := fillBufs_ok hreading hlt (hpending ▸ hfits)
  have hall : (segments.map entriesOf).filter (· ≠ []) = segments.map entriesOf := by
    apply List.filter_eq_self.mpr
    intro es hes
    obtain ⟨s, hs, rfl⟩ := List.mem_map.mp hes
    exact decide_eq_true (legible_ne_nil (legible_of_whole (h.whole s hs)))
  rw [hpending, hall] at hsame
  exact ⟨bufs, hfill, ⟨hfull, hsame ▸ of_allEntries h.keys, hsame ▸ hfits⟩, hsame⟩

/-- INTERNAL: the last segment of a merge is finished.
SOURCE: level.rs:547-554 -/
def finishOutput (out : Sst.Output) : EStateM Fault Dir (List Sst.Segment) := do
  if out.segmentWriter.finished = false then do
    let (_, newSegment) ← Sst.finishSegment out.segmentWriter
    return out.res ++ [newSegment]
  else return out.res

/-- INTERNAL: a merge starts with full buffers and an empty segment, and ends with the last one.
SOURCE: level.rs:479-510, 547-555 -/
theorem mergeAndWriteTo_start (h : Mergeable segments) (hne : segments ≠ []) :
    ∃ bufs, Loaded (Sst.MERGE_BUF_MAX_TOTAL_SIZE / segments.length + 1) bufs ∧
      bufs.map pending = segments.map entriesOf ∧
      ∀ orders targetSize fuel level d,
        (Sst.mergeAndWriteTo orders targetSize fuel level segments).run d = (do
          let newSegmentNumber ← liftExec (checkedAdd 64 level.highestSegmentNumber 1)
          let w ← Sst.createSegment targetSize level.levelNumber newSegmentNumber
            level.indexSparsityFactor
          let newSegmentNumber ← liftExec (checkedAdd 64 newSegmentNumber 1)
          let out ← Sst.mergeRounds orders targetSize level fuel fuel bufs
            ⟨w, newSegmentNumber, []⟩
          finishOutput out : EStateM Fault Dir (List Sst.Segment)).run d := by
  obtain ⟨bufs, hfill, hloaded, hpending⟩ := fillBufs_mergeable h
  refine ⟨bufs, hloaded, hpending, fun orders targetSize fuel level d => ?_⟩
  have hsome : segments.isEmpty = false := by simpa using hne
  rw [Sst.mergeAndWriteTo, hsome, if_neg Bool.false_ne_true,
    checkedAdd_ok (readBufLen_lt segments), run_bind_ok (run_liftExec_ok ..)]
  dsimp only
  rw [hfill]
  rfl

/-- What a merge that returns has written: the entries of a list, behind each other into new
segments of its level.
SOURCE: level.rs:479-555 -/
theorem mergeAndWriteTo_eq_ok (h : Mergeable segments) (hne : segments ≠ [])
    {orders : ℕ → Sst.IterationOrder} {targetSize fuel : ℕ} {out : List Sst.Segment} {d d' : Dir}
    (hrun : (Sst.mergeAndWriteTo orders targetSize fuel level segments).run d = .ok out d') :
    ∃ entries w d₁ last d₂,
      MergedFrom (Sst.MERGE_BUF_MAX_TOTAL_SIZE / segments.length + 1) (segments.map entriesOf)
        entries ∧
      (Sst.createSegment targetSize level.levelNumber (level.highestSegmentNumber + 1)
        level.indexSparsityFactor).run d = .ok w d₁ ∧
      (Sst.writeBuf targetSize level entries ⟨w, level.highestSegmentNumber + 2, []⟩).run d₁ =
        .ok last d₂ ∧
      (finishOutput last).run d₂ = .ok out d' := by
  obtain ⟨bufs, hloaded, hpending, hstart⟩ := mergeAndWriteTo_start h hne
  rw [hstart] at hrun
  obtain ⟨number, _, hlift, h₁⟩ := run_bind_eq_ok hrun
  obtain ⟨hnumber, rfl⟩ := run_liftExec_eq_ok hlift
  obtain ⟨rfl, -⟩ := checkedAdd_eq_ok hnumber
  obtain ⟨w, d₁, hcreate, h₂⟩ := run_bind_eq_ok h₁
  obtain ⟨number', _, hlift', h₃⟩ := run_bind_eq_ok h₂
  obtain ⟨hnumber', rfl⟩ := run_liftExec_eq_ok hlift'
  obtain ⟨rfl, -⟩ := checkedAdd_eq_ok hnumber'
  obtain ⟨last, d₂, hrounds, hend⟩ := run_bind_eq_ok h₃
  obtain ⟨entries, hentries, hwrite⟩ := mergeRounds_eq_ok (readBufLen_lt segments) hloaded hrounds
  exact ⟨entries, w, _, last, d₂, hpending ▸ hentries, hcreate, hwrite, hend⟩

end

end Rkvs.Analysis

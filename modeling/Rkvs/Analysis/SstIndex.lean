import Rkvs.Analysis.SstEntries

/-!
# The index of a segment file

Whichever entries are indexed, an index entry gives the place where its entry starts, and the
binary search ends at the last index entry that is not behind the key. The range that a lookup
reads then holds the key's entry if there is one.
-/

set_option autoImplicit false

namespace Rkvs.Analysis

open Rkvs.Library Rkvs.Model Rkvs.Interface

/-! ## What a file holds -/

/-- INTERNAL: a segment that holds entries in the order of their keys. -/
theorem stored_of_opened {seg : Sst.Segment} {es : List SsTableEntry} (h : Opened seg es)
    (hasc : Ascending es) : Stored seg es :=
  ⟨hasc, h.fits, h.data, h.dataEnd, h.index, h.first, h.last⟩

/-- INTERNAL: the order of the keys does not matter to what the file holds. -/
theorem opened_of_stored {seg : Sst.Segment} {es : List SsTableEntry} (h : Stored seg es) :
    Opened seg es := ⟨h.fits, h.data, h.dataEnd, h.index, h.first, h.last⟩

/-! ## Places of entries -/

theorem indexPlaces_append (offset : ℕ) (es fs : List SsTableEntry) :
    indexPlaces offset (es ++ fs) =
      indexPlaces offset es ++ indexPlaces (offset + (dataBlock es).length) fs := by
  induction es generalizing offset with
  | nil => rfl
  | cons e es ih =>
    rw [List.cons_append, indexPlaces, indexPlaces, ih, dataBlock_cons, List.length_append,
      Nat.add_assoc]
    rfl

theorem indexPlaces_keys (offset : ℕ) (es : List SsTableEntry) :
    (indexPlaces offset es).map Sst.SegmentIndexEntry.key = es.map SsTableEntry.key := by
  induction es generalizing offset with
  | nil => rfl
  | cons e es ih => rw [indexPlaces, List.map_cons, List.map_cons, ih]

/-- INTERNAL: an index entry is that of one of the entries. -/
theorem mem_indexPlaces {offset : ℕ} {es : List SsTableEntry} {x : Sst.SegmentIndexEntry}
    (h : x ∈ indexPlaces offset es) : ∃ front e rear, es = front ++ e :: rear ∧ x.key = e.key ∧
      x.offset = offset + (dataBlock front).length := by
  induction es generalizing offset with
  | nil => cases h
  | cons e es ih =>
    obtain rfl | h := List.mem_cons.mp h
    · exact ⟨[], e, es, rfl, rfl, rfl⟩
    · obtain ⟨front, e', rear, rfl, hkey, hoffset⟩ := ih h
      refine ⟨e :: front, e', rear, rfl, hkey, ?_⟩
      rw [hoffset, dataBlock_cons, List.length_append, Nat.add_assoc]

/-! ## Ascending entries -/

/-- The entries before a key. -/
def before (es : List SsTableEntry) (key : String) : List SsTableEntry :=
  es.filter fun e => e.key < key

/-- The entries from a key on. -/
def since (es : List SsTableEntry) (key : String) : List SsTableEntry :=
  es.filter fun e => key ≤ e.key

/-- INTERNAL: ascending entries are those before a key and those from it on. -/
theorem before_append_since {es : List SsTableEntry} (h : Ascending es) (key : String) :
    before es key ++ since es key = es := by
  unfold before since
  induction es with
  | nil => rfl
  | cons e es ih =>
    obtain ⟨hhead, htail⟩ := List.pairwise_cons.mp h
    by_cases hlt : e.key < key
    · rw [List.filter_cons_of_pos (by simpa using hlt), List.filter_cons_of_neg (by simpa using hlt),
        List.cons_append, ih htail]
    · have hle := le_of_not_gt hlt
      have hnone : es.filter (fun f => f.key < key) = [] := by
        apply List.filter_eq_nil_iff.mpr
        intro f hf
        simp only [decide_eq_true_eq]
        exact fun hf' => hlt ((hhead f hf).trans hf')
      have hall : es.filter (fun f => key ≤ f.key) = es := by
        apply List.filter_eq_self.mpr
        intro f hf
        exact decide_eq_true (hle.trans (hhead f hf).le)
      rw [List.filter_cons_of_neg (by simpa using hlt), List.filter_cons_of_pos (by simpa using hle),
        hnone, hall, List.nil_append]

/-- INTERNAL: the entries before one of them are the ones in front of it. -/
theorem before_middle {front rear : List SsTableEntry} {e : SsTableEntry}
    (h : Ascending (front ++ e :: rear)) : before (front ++ e :: rear) e.key = front := by
  obtain ⟨-, hrear, hcross⟩ := List.pairwise_append.mp h
  obtain ⟨hhead, -⟩ := List.pairwise_cons.mp hrear
  have hfront : front.filter (fun f => f.key < e.key) = front := by
    apply List.filter_eq_self.mpr
    intro f hf
    exact decide_eq_true (hcross f hf e (List.mem_cons_self ..))
  have hnone : rear.filter (fun f => f.key < e.key) = [] := by
    apply List.filter_eq_nil_iff.mpr
    intro f hf
    simp only [decide_eq_true_eq]
    exact (hhead f hf).asymm
  unfold before
  rw [List.filter_append, hfront, List.filter_cons_of_neg (by simp), hnone, List.append_nil]

/-- INTERNAL: the entries before a key are those before a smaller one and those from it on. -/
theorem before_since_before {es : List SsTableEntry} (h : Ascending es) {lo hi : String}
    (hle : lo ≤ hi) : before es lo ++ since (before es hi) lo = before es hi := by
  have hlo : before (before es hi) lo = before es lo := by
    unfold before
    rw [List.filter_filter]
    apply List.filter_congr
    intro e _
    by_cases hlt : e.key < lo
    · simp [hlt, hlt.trans_le hle]
    · simp [hlt]
  rw [← hlo]
  exact before_append_since (h.sublist List.filter_sublist) lo

/-- INTERNAL: what has no entry with the key does not matter for a lookup. -/
theorem entryFor_filter {es : List SsTableEntry} {key : String} {p : SsTableEntry → Bool}
    (h : ∀ e ∈ es, e.key = key → p e = true) : entryFor (es.filter p) key = entryFor es key := by
  unfold entryFor
  induction es with
  | nil => rfl
  | cons e es ih =>
    have hrest := ih fun f hf => h f (List.mem_cons_of_mem _ hf)
    by_cases hkey : e.key = key
    · rw [List.filter_cons_of_pos (h e (List.mem_cons_self ..) hkey),
        List.find?_cons_of_pos (by simpa using hkey), List.find?_cons_of_pos (by simpa using hkey)]
    · rw [List.find?_cons_of_neg (by simpa using hkey)]
      by_cases hp : p e = true
      · rw [List.filter_cons_of_pos hp, List.find?_cons_of_neg (by simpa using hkey), hrest]
      · rw [List.filter_cons_of_neg hp, hrest]

/-- INTERNAL: an entry is found under its key. -/
theorem entryFor_eq_some {es : List SsTableEntry} (h : Ascending es) {e : SsTableEntry}
    (he : e ∈ es) : entryFor es e.key = some e := by
  unfold entryFor
  induction es with
  | nil => cases he
  | cons f es ih =>
    obtain ⟨hhead, htail⟩ := List.pairwise_cons.mp h
    obtain rfl | he := List.mem_cons.mp he
    · simp
    · rw [List.find?_cons_of_neg (by simpa using (hhead e he).ne), ih htail he]

theorem entryFor_eq_none {es : List SsTableEntry} {key : String} :
    entryFor es key = none ↔ ∀ e ∈ es, e.key ≠ key := by
  simp [entryFor]

/-- The scan of ascending entries finds the key's.
SOURCE: level/segment.rs:165-173 -/
theorem scan_eq {es : List SsTableEntry} (h : Ascending es) (key : String) :
    Sst.Segment.scan key es = entryFor es key := by
  induction es with
  | nil => rfl
  | cons e es ih =>
    obtain ⟨hhead, htail⟩ := List.pairwise_cons.mp h
    rw [Sst.Segment.scan]
    by_cases hkey : e.key = key
    · rw [if_pos hkey]
      unfold entryFor
      rw [List.find?_cons_of_pos (by simpa using hkey)]
    · have hrest : entryFor (e :: es) key = entryFor es key := by
        unfold entryFor
        rw [List.find?_cons_of_neg (by simpa using hkey)]
      rw [if_neg hkey, hrest]
      by_cases hlt : key < e.key
      · rw [if_pos hlt]
        symm
        apply entryFor_eq_none.mpr
        intro f hf
        exact (hlt.trans (hhead f hf)).ne'
      · rw [if_neg hlt, ih htail]

/-! ## The binary search -/

section
variable {indices : List Sst.SegmentIndexEntry}

/-- From index entry `l`, which is not behind the key, to `r`, behind which all are, the search
ends at the last one that is not behind the key.
SOURCE: level/segment.rs:489-502 -/
theorem binarySearchLoop_ok {key : String}
    (hsorted : indices.Pairwise fun a b => a.key < b.key) {fuel l r : ℕ} (hfuel : r - l < fuel)
    (hlr : l ≤ r) (hr : r < indices.length) (hl : indices[l].key ≤ key)
    (hbehind : ∀ j, (hj : j < indices.length) → r < j → key < indices[j].key) :
    ∃ i, ∃ hi : i < indices.length, Sst.SegmentIndex.binarySearchLoop indices key fuel l r = .ok i ∧
      indices[i].key ≤ key ∧ ∀ j, (hj : j < indices.length) → i < j → key < indices[j].key := by
  induction fuel generalizing l r with
  | zero => omega
  | succ fuel ih =>
    rw [Sst.SegmentIndex.binarySearchLoop]
    by_cases hlt : l < r
    · have hm : (l + r) / 2 + 1 < indices.length := by omega
      rw [if_pos hlt]
      dsimp only
      rw [List.getElem?_eq_getElem hm, unwrap_some, exec_ok_bind]
      by_cases hle : indices[(l + r) / 2 + 1].key ≤ key
      · rw [if_pos hle]
        exact ih (by omega) (by omega) hr hle hbehind
      · rw [if_neg hle]
        refine ih (by omega) (by omega) (by omega) hl ?_
        intro j hj hmj
        obtain heq | hgt := Nat.eq_or_lt_of_le (show (l + r) / 2 + 1 ≤ j by omega)
        · subst heq
          exact lt_of_not_ge hle
        · have hstep := List.pairwise_iff_getElem.mp hsorted _ j hm hj hgt
          exact (lt_of_not_ge hle).trans hstep
    · obtain rfl : l = r := by omega
      rw [if_neg hlt]
      exact ⟨l, hr, rfl, hl, hbehind⟩

/-- SOURCE: level/segment.rs:489-502 -/
theorem binarySearch_ok (len : ℕ) {key : String}
    (hsorted : indices.Pairwise fun a b => a.key < b.key) (hpos : 0 < indices.length)
    (hfirst : indices[0].key ≤ key) :
    ∃ i, ∃ hi : i < indices.length,
      Sst.SegmentIndex.binarySearch ⟨indices, len⟩ key = .ok (indices[i], i) ∧
      indices[i].key ≤ key ∧ ∀ j, (hj : j < indices.length) → i < j → key < indices[j].key := by
  obtain ⟨i, hi, hloop, hle, hbehind⟩ := binarySearchLoop_ok hsorted
    (show indices.length - 1 - 0 < indices.length - 1 + 1 by omega) (Nat.zero_le _) (by omega)
    hfirst (by omega)
  refine ⟨i, hi, ?_, hle, hbehind⟩
  unfold Sst.SegmentIndex.binarySearch
  simp only [checkedSub_ok (show 1 ≤ indices.length from hpos), exec_ok_bind, hloop,
    List.getElem?_eq_getElem hi, unwrap_some, exec_pure]

end

/-! ## Lookups -/

section
variable {seg : Sst.Segment} {es : List SsTableEntry} (h : Stored seg es)
include h

/-- INTERNAL: index entries are in the order of their keys. -/
theorem indices_sorted : seg.index.indices.Pairwise fun a b => a.key < b.key := by
  have hall : (indexPlaces 0 es).Pairwise fun a b => a.key < b.key := by
    rw [← List.pairwise_map (f := Sst.SegmentIndexEntry.key), indexPlaces_keys, List.pairwise_map]
    exact h.ascending
  exact hall.sublist h.index

/-- INTERNAL: an index entry stands for an entry and gives its place. -/
theorem index_mem {x : Sst.SegmentIndexEntry} (hx : x ∈ seg.index.indices) :
    (∃ e rear, es = before es x.key ++ e :: rear ∧ x.key = e.key) ∧
      x.offset = (dataBlock (before es x.key)).length := by
  obtain ⟨front, e, rear, rfl, hkey, hoffset⟩ := mem_indexPlaces (h.index.subset hx)
  have hbefore : before (front ++ e :: rear) x.key = front := by
    rw [hkey]
    exact before_middle h.ascending
  rw [hbefore]
  exact ⟨⟨e, rear, rfl, hkey⟩, by rw [hoffset, Nat.zero_add]⟩

/-- INTERNAL: entries that follow each other are read.
SOURCE: level/segment.rs:226-242 -/
theorem readPart_ok (front middle rear : List SsTableEntry) (hes : es = front ++ middle ++ rear)
    {start stop : ℕ} (hstart : start = (dataBlock front).length)
    (hstop : stop = (dataBlock (front ++ middle)).length) :
    Sst.Segment.readTableEntries seg.file start stop = .ok middle := by
  obtain ⟨rest, -, hfile⟩ := h.data
  have hfits : ∀ e ∈ middle, EntryFits e := fun e he => h.fits e (by simp [hes, he])
  refine readTableEntries_ok (dataBlock front) (dataBlock rear ++ rest) hfits ?_ hstart ?_
  · rw [hfile, hes]
    simp
  · rw [hstop]
    simp

/-- INTERNAL: the scan of a range finds what the whole file has for the key. -/
theorem scan_filter {key : String} {p : SsTableEntry → Bool}
    (hp : ∀ e ∈ es, e.key = key → p e = true) :
    Sst.Segment.scan key (es.filter p) = entryFor es key := by
  rw [scan_eq (h.ascending.sublist List.filter_sublist), entryFor_filter hp]

/-- Lookups are answered with the entries.
SOURCE: level/segment.rs:157-175, 467-502 -/
theorem get_eq (key : String) : seg.get key = .ok (entryFor es key) := by
  have hsorted := indices_sorted h
  have hmem := fun x => index_mem (x := x) h
  unfold Sst.Segment.get Sst.SegmentIndex.find
  cases hindices : seg.index.indices with
  | nil =>
    -- without an index everything is read
    have hread := readPart_ok h [] es [] (by simp) rfl h.dataEnd
    simp only [exec_pure, exec_ok_bind, Option.getD_none]
    rw [show (0 : ℕ) = (dataBlock []).length from rfl, hread, exec_ok_bind]
    exact congrArg Except.ok (scan_eq h.ascending key)
  | cons first indices =>
    have hfirst := hmem first (by rw [hindices]; exact List.mem_cons_self ..)
    by_cases hlt : key < first.key
    · -- the head of the file
      have hread := readPart_ok h [] (before es first.key) (since es first.key)
        (by rw [List.nil_append, before_append_since h.ascending]) rfl hfirst.2
      have hscan : Sst.Segment.scan key (before es first.key) = entryFor es key :=
        scan_filter h fun e _ he => decide_eq_true (he ▸ hlt)
      simp only [if_pos hlt, exec_pure, exec_ok_bind, Option.getD_some]
      rw [show (0 : ℕ) = (dataBlock []).length from rfl, hread, exec_ok_bind]
      exact congrArg Except.ok hscan
    · rw [hindices] at hsorted
      obtain ⟨i, hi, hsearch, hle, hbehind⟩ := binarySearch_ok
        seg.index.len hsorted (by simp) (le_of_not_gt hlt)
      have hindex : seg.index = ⟨first :: indices, seg.index.len⟩ := by rw [← hindices]
      obtain ⟨⟨e, rear, hes, hkey⟩, hoffset⟩ := hmem ((first :: indices)[i])
        (by rw [hindices]; exact List.getElem_mem hi)
      rw [hindex]
      simp only [if_neg hlt, hsearch, exec_ok_bind]
      have hascending := h.ascending
      set entry := (first :: indices)[i] with hentry
      by_cases heq : key = entry.key
      · -- the entry itself is indexed
        obtain ⟨rest, -, hfile⟩ := h.data
        have hread : Sst.Segment.readTableEntry seg.file entry.offset = .ok e :=
          readTableEntry_ok (dataBlock (before es entry.key)) (dataBlock rear ++ rest)
            (h.fits e (by rw [hes]; simp)) (by rw [hfile]; nth_rewrite 1 [hes]; simp) hoffset
        have hfound : entryFor es key = some e := by
          rw [heq, hkey]
          exact entryFor_eq_some hascending (by rw [hes]; simp)
        simp only [if_pos heq, exec_pure, exec_ok_bind, hread, hfound]
        rfl
      · rw [if_neg heq]
        by_cases hnext : i < (first :: indices).length - 1
        · -- the range ends at the next index entry
          have hi' : i + 1 < (first :: indices).length := by omega
          obtain ⟨-, hoffset'⟩ := hmem ((first :: indices)[i + 1])
            (by rw [hindices]; exact List.getElem_mem hi')
          have hpast := hbehind (i + 1) hi' (by omega)
          rw [if_pos hnext, List.getElem?_eq_getElem hi', unwrap_some]
          simp only [exec_pure, exec_ok_bind, Option.getD_some]
          set next := (first :: indices)[i + 1] with hnextEntry
          have hsplit := before_since_before hascending (hle.trans hpast.le)
          have hread := readPart_ok h (before es entry.key)
            (since (before es next.key) entry.key) (since es next.key)
            (by rw [hsplit, before_append_since hascending]) hoffset (by rw [hsplit, ← hoffset'])
          have hscan : Sst.Segment.scan key (since (before es next.key) entry.key) =
              entryFor es key := by
            unfold since before
            rw [List.filter_filter]
            refine scan_filter h fun e _ he => ?_
            simp [he, hle, hpast]
          rw [hread, exec_ok_bind, hscan]
        · -- the range ends with the data
          have hread := readPart_ok h (before es entry.key) (since es entry.key) []
            (by rw [before_append_since hascending, List.append_nil]) hoffset
            (by rw [before_append_since hascending, ← h.dataEnd])
          have hscan : Sst.Segment.scan key (since es entry.key) = entryFor es key :=
            scan_filter h fun e _ he => decide_eq_true (he ▸ hle)
          simp only [if_neg hnext, exec_pure, exec_ok_bind, Option.getD_none, hread]
          exact congrArg Except.ok hscan

/-- A stored segment answers lookups. -/
theorem Stored.answers : Answers seg es :=
  ⟨h.ascending, h.first, h.last, get_eq h⟩

end

end Rkvs.Analysis

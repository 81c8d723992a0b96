import Rkvs.Analysis.SstIndex

/-!
# Opening a segment file

The index that was written is read back, and with it the key range of the file.
-/

set_option autoImplicit false

namespace Rkvs.Analysis

open Rkvs.Library Rkvs.Model Rkvs.Interface

/-- What the lengths of index entries add up to, as the writer counts them. -/
def indexLen (indices : List Sst.SegmentIndexEntry) : ℕ :=
  (indices.map fun x => (asBytes x.key).length + 8 + 4).sum

/-- The fields of an index entry hold its key's length and its offset. -/
structure IndexFits (x : Sst.SegmentIndexEntry) : Prop where
  key_lt : (asBytes x.key).length < 2 ^ 32
  offset_lt : x.offset < 2 ^ 64

@[simp] theorem indexEntry_length (x : Sst.SegmentIndexEntry) :
    x.toBytes.length = (asBytes x.key).length + 16 := by
  simp [Sst.SegmentIndexEntry.toBytes]
  omega

/-- INTERNAL: an index is at least as long as it counts. -/
theorem indexLen_le (indices : List Sst.SegmentIndexEntry) :
    indexLen indices ≤ (indices.flatMap Sst.SegmentIndexEntry.toBytes).length := by
  unfold indexLen
  induction indices with
  | nil => simp
  | cons x indices ih =>
    rw [List.map_cons, List.sum_cons, List.flatMap_cons, List.length_append, indexEntry_length]
    omega

/-- INTERNAL: every index entry takes at least one byte. -/
theorem length_le_indexBytes (indices : List Sst.SegmentIndexEntry) :
    indices.length ≤ (indices.flatMap Sst.SegmentIndexEntry.toBytes).length := by
  induction indices with
  | nil => simp
  | cons x indices ih =>
    rw [List.length_cons, List.flatMap_cons, List.length_append, indexEntry_length]
    omega

theorem indexLen_append (indices more : List Sst.SegmentIndexEntry) :
    indexLen (indices ++ more) = indexLen indices + indexLen more := by
  simp [indexLen]

/-- INTERNAL: an entry is put at the end of the index.
SOURCE: level/segment.rs:513-519 -/
theorem addIndex_ok {indices : List Sst.SegmentIndexEntry} (x : Sst.SegmentIndexEntry)
    (h : indexLen (indices ++ [x]) < 2 ^ 64) :
    Sst.SegmentIndex.addIndex ⟨indices, indexLen indices⟩ x.key x.offset =
      .ok ⟨indices ++ [x], indexLen (indices ++ [x])⟩ := by
  have hone : indexLen [x] = (asBytes x.key).length + 8 + 4 := rfl
  rw [indexLen_append, hone] at h ⊢
  unfold Sst.SegmentIndex.addIndex
  rw [checkedAdd_ok h]
  rfl

/-- INTERNAL: the loop takes over the index entries that stand in the rest of the buffer.
SOURCE: level/segment.rs:521-537 -/
theorem indexFromBytesLoop_ok {more : List Sst.SegmentIndexEntry}
    (hfits : ∀ x ∈ more, IndexFits x) (done : List Sst.SegmentIndexEntry)
    (hlen : indexLen (done ++ more) < 2 ^ 64) {buf : Bytes} (front : Bytes)
    (h : buf = front ++ more.flatMap Sst.SegmentIndexEntry.toBytes) {fuel : ℕ}
    (hfuel : more.length < fuel) :
    Sst.SegmentIndex.fromBytesLoop buf fuel front.length ⟨done, indexLen done⟩ =
      .ok ⟨done ++ more, indexLen (done ++ more)⟩ := by
  induction more generalizing done front fuel with
  | nil =>
    obtain ⟨left, rfl⟩ : ∃ left, fuel = left + 1 := ⟨fuel - 1, by simp at hfuel; omega⟩
    have hend : ¬front.length < buf.length := by simp [h]
    rw [Sst.SegmentIndex.fromBytesLoop, if_neg hend, List.append_nil]
  | cons x more ih =>
    obtain ⟨left, rfl⟩ : ∃ left, fuel = left + 1 := ⟨fuel - 1, by simp at hfuel; omega⟩
    obtain ⟨hkey, hoffset⟩ := hfits x (List.mem_cons_self ..)
    have hmore : front.length < buf.length := by
      rw [h, List.flatMap_cons]
      simp
    have hxbytes : x.toBytes = leBytes 8 (asBytes x.key).length ++ asBytes x.key ++
        leBytes 8 x.offset := by
      unfold Sst.SegmentIndexEntry.toBytes
      rw [leBytes_zeros 4 (by omega)]
    have hkeyLen : slice buf front.length (front.length + 8) =
        .ok (leBytes 8 (asBytes x.key).length) :=
      slice_middle front _ (asBytes x.key ++ leBytes 8 x.offset ++
        more.flatMap Sst.SegmentIndexEntry.toBytes) (by simp [h, hxbytes]) rfl (by simp)
    have hkeyBytes : slice buf (front.length + 8)
        (front.length + 8 + (asBytes x.key).length) = .ok (asBytes x.key) :=
      slice_middle (front ++ leBytes 8 (asBytes x.key).length) _ (leBytes 8 x.offset ++
        more.flatMap Sst.SegmentIndexEntry.toBytes) (by simp [h, hxbytes]) (by simp) (by simp)
    have hoffsetBytes : slice buf (front.length + 8 + (asBytes x.key).length)
        (front.length + 8 + (asBytes x.key).length + 8) = .ok (leBytes 8 x.offset) :=
      slice_middle (front ++ leBytes 8 (asBytes x.key).length ++ asBytes x.key) _
        (more.flatMap Sst.SegmentIndexEntry.toBytes) (by simp [h, hxbytes]) (by simp; omega)
        (by simp; omega)
    have hadd := @addIndex_ok done x (by
      rw [show done ++ x :: more = done ++ [x] ++ more by simp, indexLen_append] at hlen
      omega)
    have hnext := ih (fun y hy => hfits y (List.mem_cons_of_mem _ hy)) (done ++ [x])
      (by simpa using hlen) (front ++ x.toBytes) (by simp [h]) (Nat.lt_of_succ_lt_succ hfuel)
    rw [List.length_append, indexEntry_length] at hnext
    rw [Sst.SegmentIndex.fromBytesLoop, if_pos hmore]
    rw [hkeyLen]
    simp only [map_ok, exec_ok_bind]
    rw [leValue_leBytes (by omega), hkeyBytes]
    simp only [exec_ok_bind, fromUtf8_asBytes, unwrap_some]
    rw [hoffsetBytes]
    simp only [map_ok, exec_ok_bind]
    rw [leValue_leBytes (by omega), hadd]
    simp only [exec_ok_bind]
    rw [show front.length + 8 + (asBytes x.key).length + 8 =
      front.length + ((asBytes x.key).length + 16) by omega, hnext]
    simp

theorem indexFromBytes_ok {indices : List Sst.SegmentIndexEntry}
    (hfits : ∀ x ∈ indices, IndexFits x)
    (hlen : (indices.flatMap Sst.SegmentIndexEntry.toBytes).length < 2 ^ 64) :
    Sst.SegmentIndex.fromBytes (indices.flatMap Sst.SegmentIndexEntry.toBytes) =
      .ok ⟨indices, indexLen indices⟩ := by
  have hle := indexLen_le indices
  have hcount := length_le_indexBytes indices
  have hloop := indexFromBytesLoop_ok hfits [] (by simpa using lt_of_le_of_lt hle hlen) [] rfl
    (Nat.lt_succ_of_le hcount)
  exact hloop

/-- INTERNAL: index entries of a data block fit their fields. -/
theorem indexFits_of_places {es : List SsTableEntry} (hfits : ∀ e ∈ es, EntryFits e)
    (hlen : (dataBlock es).length < 2 ^ 64) {x : Sst.SegmentIndexEntry} (hx : x ∈ indexPlaces 0 es) :
    IndexFits x := by
  obtain ⟨front, e, rear, rfl, hkey, hoffset⟩ := mem_indexPlaces hx
  have hge := len_ge e
  have hlt := (hfits e (by simp)).len_lt
  refine ⟨by rw [hkey]; omega, ?_⟩
  rw [dataBlock_append, List.length_append] at hlen
  omega

/-- INTERNAL: the entries from the last index entry on end like the file.
SOURCE: level/segment.rs:123-136 -/
theorem readLast_ok {file rear : Bytes} {es : List SsTableEntry}
    {indices : List Sst.SegmentIndexEntry} (hfile : file = dataBlock es ++ rear)
    (hfits : ∀ e ∈ es, EntryFits e)
    (hindex : indices.Sublist (indexPlaces 0 es)) {start : ℕ}
    (hstart : start = match indices.getLast? with
      | none => 0
      | some idx => idx.offset) :
    ∃ rest, Sst.Segment.readTableEntries file start (dataBlock es).length = .ok rest ∧
      rest.getLast? = es.getLast? := by
  cases hlast : indices.getLast? with
  | none =>
    rw [hlast] at hstart
    exact ⟨es, readTableEntries_ok [] rear hfits (by simpa using hfile) hstart (by simp), rfl⟩
  | some idx =>
    rw [hlast] at hstart
    obtain ⟨front, e, more, rfl, hkey, hoffset⟩ :=
      mem_indexPlaces (hindex.subset (List.mem_of_getLast? hlast))
    refine ⟨e :: more, ?_, (List.getLast?_append_of_ne_nil _ (List.cons_ne_nil e more)).symm⟩
    refine readTableEntries_ok (dataBlock front) rear
      (fun f hf => hfits f (List.mem_append_right _ hf)) (by simpa using hfile) ?_ (by simp)
    rw [hstart]
    simpa using hoffset

/-- A segment file with an index of some of its entries is opened, in whatever order they are.
SOURCE: level/segment.rs:99-152 -/
theorem fromFile_opens {dir : Dir} {path : String} {levelNo segmentNo : ℕ}
    {es : List SsTableEntry} {indices : List Sst.SegmentIndexEntry}
    (hname : Sst.Segment.levelAndSegmentNumberFromFilename path = .ok (levelNo, segmentNo))
    (hmem : path ∈ dir.names) (hcontent : dir.content path = segmentBytes es indices)
    (hlen : (segmentBytes es indices).length < 2 ^ 64) (hne : es ≠ [])
    (hfits : ∀ e ∈ es, EntryFits e) (hindex : indices.Sublist (indexPlaces 0 es)) :
    ∃ seg, Sst.Segment.fromFile dir path = .ok (.ok seg) ∧ Opened seg es ∧
      seg.file = segmentBytes es indices ∧ seg.filepath = path ∧ seg.levelNumber = levelNo ∧
      seg.number = segmentNo ∧ seg.size = (segmentBytes es indices).length := by
  obtain ⟨first, es', rfl⟩ := List.exists_cons_of_ne_nil hne
  have hfooter : Sst.SEGMENT_FOOTER_LEN = 12 := rfl
  obtain ⟨block, hblock⟩ : ∃ block, dataBlock (first :: es') = block := ⟨_, rfl⟩
  obtain ⟨index, hindexBytes⟩ : ∃ index, indices.flatMap Sst.SegmentIndexEntry.toBytes = index :=
    ⟨_, rfl⟩
  have hfile : segmentBytes (first :: es') indices = block ++ index ++
      Sst.footerToBytes block.length := by
    rw [← hblock, ← hindexBytes]
    rfl
  have hfileLen : (block ++ index ++ Sst.footerToBytes block.length).length =
      block.length + index.length + 12 := by
    simp [Sst.footerToBytes, Sst.MAGIC_BYTES, Nat.add_assoc]
  rw [hfile] at hcontent hlen ⊢
  have hdrop : (block ++ index ++ Sst.footerToBytes block.length).drop
      (block.length + index.length + 12 - Sst.SEGMENT_FOOTER_LEN) =
        Sst.footerToBytes block.length := by
    rw [hfooter, Nat.add_sub_cancel, ← List.length_append, List.drop_left]
  have hmagic : (Sst.footerToBytes block.length).drop 8 = Sst.MAGIC_BYTES := by
    unfold Sst.footerToBytes
    rw [List.drop_left' (by simp)]
  have hoffset : leValue ((Sst.footerToBytes block.length).take 8) = block.length := by
    unfold Sst.footerToBytes
    rw [List.take_left' (by simp), leValue_leBytes (by omega)]
  have hindexRead : ((block ++ index ++ Sst.footerToBytes block.length).drop block.length).take
      index.length = index := by
    rw [List.append_assoc, List.drop_left, List.take_left]
  have hindexOk : Sst.SegmentIndex.fromBytes index = .ok ⟨indices, indexLen indices⟩ := by
    rw [← hindexBytes]
    refine indexFromBytes_ok (fun x hx => indexFits_of_places hfits ?_ (hindex.subset hx)) ?_
    · rw [hblock]
      omega
    · rw [hindexBytes]
      omega
  have hfirst : Sst.Segment.readTableEntry (block ++ index ++ Sst.footerToBytes block.length) 0 =
      .ok first :=
    readTableEntry_ok [] (dataBlock es' ++ index ++ Sst.footerToBytes block.length)
      (hfits first (List.mem_cons_self ..)) (by simp [← hblock]) rfl
  have hwhole : block ++ index ++ Sst.footerToBytes block.length =
      dataBlock (first :: es') ++ (index ++ Sst.footerToBytes block.length) := by
    rw [hblock, List.append_assoc]
  obtain ⟨rest, hrest, hlast⟩ := readLast_ok hwhole hfits hindex rfl
  rw [hblock] at hrest
  have hlastKey : ∃ e, rest.getLast? = some e ∧ (first :: es').getLast? = some e := by
    rw [hlast, List.getLast?_cons]
    exact ⟨_, rfl, rfl⟩
  obtain ⟨last, hrestLast, hesLast⟩ := hlastKey
  have hopen : Sst.Segment.fromFile dir path = .ok (.ok
      { file := block ++ index ++ Sst.footerToBytes block.length
        filepath := path
        highestSequenceNo := rest.foldl (fun n e => if e.sequenceNumber > n then
          e.sequenceNumber else n) 0
        index := ⟨indices, indexLen indices⟩
        size := block.length + index.length + 12
        number := segmentNo
        dataBlockEnd := block.length
        firstKey := first.key
        lastKey := last.key
        levelNumber := levelNo }) := by
    unfold Sst.Segment.fromFile
    rw [hcontent]
    simp only [hname, exec_ok_bind]
    rw [if_neg (not_not.mpr hmem)]
    simp only [hfileLen, hdrop, hmagic, hoffset]
    rw [if_neg (by omega)]
    simp only [ne_eq, not_true, if_false]
    rw [hfooter, checkedSub_ok (by omega), exec_ok_bind, checkedSub_ok (by omega), exec_ok_bind,
      Nat.add_sub_cancel, Nat.add_sub_cancel_left, hindexRead, hindexOk]
    simp only [exec_ok_bind, hfirst]
    cases hidx : indices.getLast? with
    | none =>
      rw [hidx] at hrest
      simp only [hrest, exec_ok_bind, hrestLast, exec_pure]
    | some idx =>
      rw [hidx] at hrest
      simp only [hrest, exec_ok_bind, hrestLast, exec_pure]
  refine ⟨_, hopen, ⟨hfits, ⟨_, ?_, hwhole⟩, ?_, hindex, rfl, ?_⟩, rfl, rfl, rfl, rfl,
    hfileLen.symm⟩
  · simp [Sst.footerToBytes, Sst.MAGIC_BYTES]
  · rw [hblock]
  · rw [hesLast]
    rfl

/-- And what it holds in the order of the keys is stored in it.
SOURCE: level/segment.rs:99-152 -/
theorem fromFile_ok {dir : Dir} {path : String} {levelNo segmentNo : ℕ}
    {es : List SsTableEntry} {indices : List Sst.SegmentIndexEntry}
    (hname : Sst.Segment.levelAndSegmentNumberFromFilename path = .ok (levelNo, segmentNo))
    (hmem : path ∈ dir.names) (hcontent : dir.content path = segmentBytes es indices)
    (hlen : (segmentBytes es indices).length < 2 ^ 64) (hne : es ≠ []) (hasc : Ascending es)
    (hfits : ∀ e ∈ es, EntryFits e) (hindex : indices.Sublist (indexPlaces 0 es)) :
    ∃ seg, Sst.Segment.fromFile dir path = .ok (.ok seg) ∧ Stored seg es ∧
      seg.file = segmentBytes es indices ∧ seg.filepath = path ∧ seg.levelNumber = levelNo ∧
      seg.number = segmentNo ∧ seg.size = (segmentBytes es indices).length := by
  obtain ⟨seg, hopen, hopened, hrest⟩ := fromFile_opens hname hmem hcontent hlen hne hfits hindex
  exact ⟨seg, hopen, stored_of_opened hopened hasc, hrest⟩

end Rkvs.Analysis

import Rkvs.Interface.SstFiles

/-!
# Entries in a data block

An entry is decoded from its bytes, and a whole number of framed entries from theirs, wherever
they stand in a file.
-/

set_option autoImplicit false

namespace Rkvs.Analysis

open Rkvs.Library Rkvs.Model Rkvs.Interface

/-- INTERNAL: the length of an encoded entry. -/
@[simp] theorem toBytes_length (e : SsTableEntry) : e.toBytes.length = e.len := by
  unfold SsTableEntry.toBytes SsTableEntry.len
  cases e.value <;> simp <;> omega

/-- INTERNAL: the length with the length field. -/
@[simp] theorem frame_length (e : SsTableEntry) : (frame e).length = e.len + 4 := by
  simp [frame, Nat.add_comm]

/-- INTERNAL: the data block of no entries. -/
@[simp] theorem dataBlock_nil : dataBlock [] = [] := rfl

/-- INTERNAL: the data block of one entry more. -/
@[simp] theorem dataBlock_cons (e : SsTableEntry) (es : List SsTableEntry) :
    dataBlock (e :: es) = frame e ++ dataBlock es := rfl

/-- INTERNAL: the data block of two lists of entries. -/
@[simp] theorem dataBlock_append (es fs : List SsTableEntry) :
    dataBlock (es ++ fs) = dataBlock es ++ dataBlock fs := List.flatMap_append

/-- INTERNAL: every entry has a key length, a value length, a tombstone byte and a number. -/
theorem len_ge (e : SsTableEntry) : 17 + (asBytes e.key).length ≤ e.len := by
  unfold SsTableEntry.len
  cases e.value <;> simp <;> omega

/-- INTERNAL: an entry ends with its sequence number. -/
theorem sequenceNumber_read {bytes : Bytes} (front : Bytes) {n start : ℕ}
    (h : bytes = front ++ leBytes 8 n) (hstart : start = front.length) (hn : n < 2 ^ 64) :
    (leValue <$> slice bytes start (start + 8) : Exec ℕ) = .ok n := by
  rw [slice_middle front (leBytes 8 n) [] (by simpa using h) hstart (by simp [hstart])]
  show Except.ok (leValue (leBytes 8 n)) = _
  rw [leValue_leBytes (by omega)]

/-- INTERNAL: the byte between a front and a rear part. -/
theorem getElem?_middle {bytes : Bytes} (front rear : Bytes) {b : UInt8} {i : ℕ}
    (h : bytes = front ++ b :: rear) (hi : i = front.length) : bytes[i]? = some b := by
  rw [h, hi, List.getElem?_append_right (Nat.le_refl _), Nat.sub_self]
  rfl

/-- INTERNAL: an entry is encoded with the mark for a value or for none. -/
theorem toBytes_eq_markedBytes (e : SsTableEntry) :
    e.toBytes = markedBytes e (if e.value = none then 1 else 0) := by
  unfold SsTableEntry.toBytes markedBytes
  cases e.value <;> simp

/-- INTERNAL: the mark does not change the length. -/
@[simp] theorem markedBytes_length (e : SsTableEntry) (mark : UInt8) :
    (markedBytes e mark).length = e.len := by
  unfold markedBytes SsTableEntry.len
  cases e.value <;> simp <;> omega

/-- An entry is decoded from its bytes, whatever marks its value.
SOURCE: sstable.rs:132-193 -/
theorem fromBytes_markedBytes {e : SsTableEntry} (h : EntryFits e) {mark : UInt8}
    (hmark : mark = 1 ↔ e.value = none) :
    SsTableEntry.fromBytes (markedBytes e mark) = .ok e := by
  obtain ⟨key, value, seq⟩ := e
  obtain ⟨hlen, hseq⟩ := h
  obtain ⟨bytes, hbytes⟩ : ∃ bytes, markedBytes ⟨key, value, seq⟩ mark = bytes := ⟨_, rfl⟩
  rw [hbytes]
  unfold markedBytes at hbytes
  unfold SsTableEntry.len at hlen
  dsimp only at hbytes hlen hmark hseq
  have hkeyLen : sliceU32 bytes 0 = .ok (asBytes key).length := by
    refine sliceU32_middle [] (asBytes key ++ (leBytes 4 (value.elim 0 fun v => (asBytes v).length) ++
      [mark] ++ value.elim [] asBytes ++ leBytes 8 seq)) ?_ rfl (by omega)
    simp [← hbytes]
  have hkey : slice bytes 4 (4 + (asBytes key).length) = .ok (asBytes key) := by
    refine slice_middle (leBytes 4 (asBytes key).length) (asBytes key)
      (leBytes 4 (value.elim 0 fun v => (asBytes v).length) ++ [mark] ++ value.elim [] asBytes ++
        leBytes 8 seq) ?_ (by simp) (by simp)
    simp [← hbytes]
  have hvalueLen : sliceU32 bytes (4 + (asBytes key).length) =
      .ok (value.elim 0 fun v => (asBytes v).length) := by
    refine sliceU32_middle (leBytes 4 (asBytes key).length ++ asBytes key)
      ([mark] ++ value.elim [] asBytes ++ leBytes 8 seq) ?_ (by simp) ?_
    · simp [← hbytes]
    · cases value with
      | none => exact Nat.two_pow_pos 32
      | some v =>
        dsimp only at hlen
        rw [Option.elim_some]
        omega
  have htombstone : bytes[4 + (asBytes key).length + 4]? = some mark := by
    refine getElem?_middle (leBytes 4 (asBytes key).length ++ asBytes key ++
      leBytes 4 (value.elim 0 fun v => (asBytes v).length)) (value.elim [] asBytes ++
        leBytes 8 seq) ?_ (by simp; omega)
    simp [← hbytes]
  unfold SsTableEntry.fromBytes
  simp only [hkeyLen, hkey, exec_ok_bind, fromUtf8_asBytes, unwrap_some, hvalueLen, htombstone]
  cases value with
  | none =>
    rw [if_pos (hmark.mpr rfl), Option.elim_none,
      sequenceNumber_read (leBytes 4 (asBytes key).length ++ asBytes key ++ leBytes 4 0 ++ [mark])
        (by simp [← hbytes]) (by simp; omega) hseq]
    rfl
  | some v =>
    have hvalue : slice bytes (4 + (asBytes key).length + 4 + 1)
        (4 + (asBytes key).length + 4 + 1 + (asBytes v).length) = .ok (asBytes v) :=
      slice_middle (leBytes 4 (asBytes key).length ++ asBytes key ++
        leBytes 4 (asBytes v).length ++ [mark]) (asBytes v) (leBytes 8 seq)
        (by simp [← hbytes]) (by simp; omega) (by simp; omega)
    rw [if_neg fun hone => nomatch hmark.mp hone]
    simp only [Option.elim_some, hvalue, exec_ok_bind, fromUtf8_asBytes, unwrap_some, map_ok]
    rw [sequenceNumber_read (leBytes 4 (asBytes key).length ++ asBytes key ++
      leBytes 4 (asBytes v).length ++ [mark] ++ asBytes v)
      (by simp [← hbytes]) (by simp; omega) hseq]
    rfl

/-- SOURCE: sstable.rs:132-193 -/
theorem fromBytes_toBytes {e : SsTableEntry} (h : EntryFits e) :
    SsTableEntry.fromBytes e.toBytes = .ok e := by
  rw [toBytes_eq_markedBytes]
  refine fromBytes_markedBytes h ?_
  cases e.value <;> simp

/-- INTERNAL: the parts of the bytes behind a key. -/
theorem split_value {rest : Bytes} {mark : UInt8} (hmark : rest[4]? = some mark) (n : ℕ) :
    rest = rest.take 4 ++ [mark] ++ (rest.drop 5).take n ++ rest.drop (5 + n) := by
  obtain ⟨hlt, heq⟩ := List.getElem?_eq_some_iff.mp hmark
  have hcons : rest.drop 4 = mark :: rest.drop 5 := by
    rw [List.drop_eq_getElem_cons hlt, heq]
  have hdrop : rest.drop (5 + n) = (rest.drop 5).drop n := List.drop_drop.symm
  rw [hdrop, List.append_assoc, List.take_append_drop, List.append_assoc, List.singleton_append,
    ← hcons, List.take_append_drop]

/-- INTERNAL: eight bytes at the end are those of their number. -/
theorem leBytes_rear {bytes : Bytes} {start : ℕ} (h : bytes.length = start + 8) :
    leBytes 8 (leValue ((bytes.drop start).take 8)) = bytes.drop start := by
  have height : (bytes.drop start).length = 8 := by
    rw [List.length_drop]
    omega
  rw [List.take_of_length_le height.le]
  have hback := leBytes_leValue (bytes.drop start)
  rwa [height] at hback

/-- Bytes that are no more than those of an entry are decoded to it only if they are its bytes but for
the mark of a value.
SOURCE: sstable.rs:164-193 -/
theorem resembles_of_fromBytes {bytes : Bytes} {e : SsTableEntry}
    (h : SsTableEntry.fromBytes bytes = .ok e) (hlen : bytes.length ≤ e.len) :
    Resembles e bytes := by
  unfold SsTableEntry.fromBytes at h
  obtain ⟨keyLen, hkeyLen, h₁⟩ := exec_bind_eq_ok.mp h
  dsimp only at h₁
  obtain ⟨keyBytes, hkeyBytes, h₂⟩ := exec_bind_eq_ok.mp h₁
  obtain ⟨key, hkey, h₃⟩ := exec_bind_eq_ok.mp h₂
  obtain ⟨valueLen, hvalueLen, h₄⟩ := exec_bind_eq_ok.mp h₃
  obtain ⟨mark, hmark, h₅⟩ := exec_bind_eq_ok.mp h₄
  -- the key
  obtain ⟨-, hkeyNumber⟩ := sliceU32_eq_ok hkeyLen
  obtain ⟨-, hkeyIn, rfl⟩ := slice_eq_ok hkeyBytes
  rw [Nat.add_sub_cancel_left, unwrap_eq_ok, hkeyNumber] at hkey
  obtain ⟨hfront, hkeyLength⟩ := @split_string bytes 0 key (by rw [← hkeyNumber]; omega) hkey
  rw [← hkeyNumber, Nat.zero_add, List.drop_zero] at hfront
  rw [← hkeyNumber] at hkeyLength
  subst hkeyLength
  obtain ⟨rest, hrest⟩ : ∃ rest, bytes.drop (4 + (asBytes key).length) = rest := ⟨_, rfl⟩
  rw [hrest] at hfront
  -- what is behind it
  obtain ⟨hvalueIn, hvalueNumber⟩ := sliceU32_eq_ok hvalueLen
  rw [hrest] at hvalueNumber
  have hrestLen : bytes.length = 4 + (asBytes key).length + rest.length := by
    rw [← hrest, List.length_drop]
    omega
  have hnumber : leBytes 4 valueLen = rest.take 4 := by
    have hfour : (rest.take 4).length = 4 := by
      rw [List.length_take]
      omega
    have hback := leBytes_leValue (rest.take 4)
    rwa [hfour, ← hvalueNumber] at hback
  have hrestMark : rest[4]? = some mark := by
    rw [← hrest, List.getElem?_drop]
    exact unwrap_eq_ok.mp hmark
  have hparts := split_value hrestMark valueLen
  have hdrop : ∀ n, bytes.drop (4 + (asBytes key).length + 4 + 1 + n) = rest.drop (5 + n) := by
    intro n
    rw [← hrest, List.drop_drop]
    congr 1
    omega
  by_cases hone : mark = 1
  · rw [if_pos hone, exec_ok_bind] at h₅
    obtain ⟨seq, hseq, hend⟩ := exec_bind_eq_ok.mp h₅
    obtain ⟨seqBytes, hseqBytes, rfl⟩ := exec_map_eq_ok.mp hseq
    obtain ⟨-, hseqIn, rfl⟩ := slice_eq_ok hseqBytes
    cases hend
    unfold SsTableEntry.len at hlen
    dsimp only at hlen
    obtain rfl : valueLen = 0 := by omega
    refine ⟨mark, ?_, by simpa using hone⟩
    unfold markedBytes
    dsimp only
    rw [Option.elim_none, Option.elim_none, Nat.add_sub_cancel_left, hdrop,
      leBytes_rear (by omega), hnumber, List.append_nil]
    rw [List.take_zero, List.append_nil] at hparts
    conv_lhs => rw [hfront, hparts]
    simp only [List.append_assoc]
  · rw [if_neg hone] at h₅
    obtain ⟨valueBytes, hvalueBytes, h₆⟩ := exec_bind_eq_ok.mp h₅
    obtain ⟨value, hvalue, h₇⟩ := exec_bind_eq_ok.mp h₆
    obtain ⟨v, hv, rfl⟩ := exec_map_eq_ok.mp hvalue
    obtain ⟨seq, hseq, hend⟩ := exec_bind_eq_ok.mp h₇
    obtain ⟨seqBytes, hseqBytes, rfl⟩ := exec_map_eq_ok.mp hseq
    obtain ⟨-, hseqIn, rfl⟩ := slice_eq_ok hseqBytes
    obtain ⟨-, hvalueIn', rfl⟩ := slice_eq_ok hvalueBytes
    cases hend
    have hvBytes := asBytes_of_fromUtf8 (unwrap_eq_ok.mp hv)
    have hplace := hdrop 0
    rw [Nat.add_zero, Nat.add_zero] at hplace
    rw [Nat.add_sub_cancel_left, hplace] at hvBytes
    have hvLen : (asBytes v).length = valueLen := by
      rw [hvBytes, List.length_take, List.length_drop]
      omega
    unfold SsTableEntry.len at hlen
    dsimp only at hlen
    refine ⟨mark, ?_, by simpa using hone⟩
    unfold markedBytes
    dsimp only
    rw [Option.elim_some, Option.elim_some, Nat.add_sub_cancel_left, hdrop,
      leBytes_rear (by omega), hvLen, hnumber, hvBytes]
    conv_lhs => rw [hfront, hparts]
    simp only [List.append_assoc]

/-! ## Reading a file -/

/-- INTERNAL: a read inside a file gives the bytes that stand there. -/
theorem readAt_middle {file : Bytes} (front middle rear : Bytes)
    (h : file = front ++ middle ++ rear) {offset n : ℕ} (hoffset : offset = front.length)
    (hn : n = middle.length) : Sst.readAt file offset n = middle := by
  subst h hoffset hn
  unfold Sst.readAt
  simp

/-- SOURCE: level/segment.rs:245-276 -/
theorem readTableEntry_ok {file : Bytes} (front rear : Bytes) {e : SsTableEntry}
    (hfits : EntryFits e) (h : file = front ++ frame e ++ rear) {offset : ℕ}
    (hoffset : offset = front.length) : Sst.Segment.readTableEntry file offset = .ok e := by
  have hlen := hfits.len_lt
  have hnumber : Sst.readAt file offset 4 = leBytes 4 e.toBytes.length :=
    readAt_middle front _ (e.toBytes ++ rear) (by simp [h, frame]) hoffset (by simp)
  have hvalue : leValue (leBytes 4 e.toBytes.length) = e.len := by
    rw [toBytes_length, leValue_leBytes (by omega)]
  have hentry : Sst.readAt file (offset + 4) e.len = e.toBytes :=
    readAt_middle (front ++ leBytes 4 e.toBytes.length) _ rear (by simp [h, frame])
      (by simp [hoffset]) (by simp)
  unfold Sst.Segment.readTableEntry
  simp only [hnumber, hvalue, hentry]
  exact fromBytes_toBytes hfits

/-- INTERNAL: the loop takes over the entries that stand in the rest of the buffer.
SOURCE: sstable.rs:218-233 -/
theorem vecFromBytesLoop_ok {es : List SsTableEntry} (hfits : ∀ e ∈ es, EntryFits e)
    {buf : Bytes} (front : Bytes) (h : buf = front ++ dataBlock es) {fuel : ℕ}
    (hfuel : es.length < fuel) (res : List SsTableEntry) :
    SsTableEntry.vecFromBytesLoop buf fuel front.length res = .ok (res ++ es) := by
  induction es generalizing front fuel res with
  | nil =>
    obtain ⟨left, rfl⟩ : ∃ left, fuel = left + 1 := ⟨fuel - 1, by simp at hfuel; omega⟩
    have hend : ¬front.length < buf.length := by simp [h]
    rw [SsTableEntry.vecFromBytesLoop, if_neg hend, List.append_nil]
  | cons e es ih =>
    obtain ⟨left, rfl⟩ : ∃ left, fuel = left + 1 := ⟨fuel - 1, by simp at hfuel; omega⟩
    have hmore : front.length < buf.length := by
      rw [h, dataBlock_cons]
      simp
    have hefits := hfits e (List.mem_cons_self ..)
    have hlen := hefits.len_lt
    have hnumber : sliceU32 buf front.length = .ok e.len :=
      sliceU32_middle front (e.toBytes ++ dataBlock es) (by simp [h, frame]) rfl hlen
    have hentry : slice buf (front.length + 4) (front.length + 4 + e.len) = .ok e.toBytes :=
      slice_middle (front ++ leBytes 4 e.len) e.toBytes (dataBlock es) (by simp [h, frame])
        (by simp) (by simp)
    have hnext := ih (fun f hf => hfits f (List.mem_cons_of_mem _ hf)) (front ++ frame e)
      (by simp [h]) (by simpa using hfuel) (res ++ [e])
    rw [List.length_append, frame_length, ← Nat.add_assoc, Nat.add_right_comm] at hnext
    rw [SsTableEntry.vecFromBytesLoop, if_pos hmore]
    simp only [hnumber, hentry, fromBytes_toBytes hefits, exec_ok_bind]
    rw [hnext, List.append_assoc]
    rfl

/-- INTERNAL: framed entries are at least as many bytes as entries. -/
theorem length_le_dataBlock (es : List SsTableEntry) : es.length ≤ (dataBlock es).length := by
  induction es with
  | nil => simp
  | cons e es ih =>
    rw [List.length_cons, dataBlock_cons, List.length_append, frame_length]
    omega

/-- The entries of a data block are read as they were written.
SOURCE: sstable.rs:219-233 -/
theorem vecFromBytes_ok {es : List SsTableEntry} (hfits : ∀ e ∈ es, EntryFits e) :
    SsTableEntry.vecFromBytes (dataBlock es) = .ok es := by
  have hlen := length_le_dataBlock es
  have hloop := vecFromBytesLoop_ok hfits [] rfl
    (show es.length < (dataBlock es).length + 1 by omega) []
  exact hloop

/-- SOURCE: level/segment.rs:226-242 -/
theorem readTableEntries_ok {file : Bytes} (front rear : Bytes) {es : List SsTableEntry}
    (hfits : ∀ e ∈ es, EntryFits e) (h : file = front ++ dataBlock es ++ rear) {start stop : ℕ}
    (hstart : start = front.length) (hstop : stop = front.length + (dataBlock es).length) :
    Sst.Segment.readTableEntries file start stop = .ok es := by
  have hread : Sst.readAt file start (stop - start) = dataBlock es :=
    readAt_middle front _ rear h hstart (by omega)
  unfold Sst.Segment.readTableEntries
  rw [checkedSub_ok (by omega), exec_ok_bind, hread, vecFromBytes_ok hfits]

end Rkvs.Analysis

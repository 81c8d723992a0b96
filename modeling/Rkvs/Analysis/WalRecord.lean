import Rkvs.Library.RecordStream
import Rkvs.Model.WalSegment

/-!
# Log records as a framed stream

One round of the parser of `wal/segment.rs` looks only at what is left of its buffer:
`scanRecord` says what it finds there. The encoding of a record is found whatever follows it,
and padding, a header whose record goes on in the next file, and a record that was cut off
are all places where the parser stops without an error.
-/

set_option autoImplicit false

namespace Rkvs.Analysis

open Rkvs.Library Rkvs.Model

/-- A record that `to_bytes` accepts, of any length. -/
structure HasEncoding (e : WalEntry) : Prop where
  key_ne : e.key ≠ ""
  valueFits : e.valueFits = true
  sequenceNumber_lt : e.sequenceNumber < 2 ^ 64

/-- A record that `to_bytes` accepts and whose lengths and numbers fit their fields. -/
structure WellFormed (e : WalEntry) : Prop where
  key_ne : e.key ≠ ""
  valueFits : e.valueFits = true
  sequenceNumber_lt : e.sequenceNumber < 2 ^ 64
  length_lt : e.body.length + 8 < 2 ^ 32

theorem WellFormed.hasEncoding {e : WalEntry} (h : WellFormed e) : HasEncoding e :=
  ⟨h.key_ne, h.valueFits, h.sequenceNumber_lt⟩

/-- Why the parser rejects what it sees: it reports corruption, or it panics. -/
inductive Defect
  | corrupted
  | fault (f : Fault)
  deriving DecidableEq, Repr

/-- What one round of `parse_validate_wal_entries` finds in the rest of its buffer.
SOURCE: wal/segment.rs:215-243 -/
def scanRecord (calculateChecksum : Bytes → UInt32) (bytes : Bytes) : Scan WalEntry Defect :=
  if bytes.length < HEADER_SIZE then .stop
  else
    let recordLen := leValue (bytes.take 4)
    if recordLen < HEADER_SIZE - 4 then .fail .corrupted
    else if bytes.length < 4 + recordLen then .stop
    else
      let body := (bytes.drop 8).take (recordLen - 4)
      if leValue ((bytes.drop 4).take 4) ≠ (calculateChecksum body).toNat then
        .fail .corrupted
      else match WalEntry.fromBytes body with
        | .error f => .fail (.fault f)
        | .ok none => .fail .corrupted
        | .ok (some entry) => .item entry (4 + recordLen)

/-- INTERNAL: an entry is found where a complete record with a fitting checksum decodes. -/
theorem scanRecord_item {crc : Bytes → UInt32} {bytes : Bytes} {e : WalEntry} {n : ℕ} :
    scanRecord crc bytes = .item e n ↔
      n = 4 + leValue (bytes.take 4) ∧ HEADER_SIZE ≤ n ∧ n ≤ bytes.length ∧
        leValue ((bytes.drop 4).take 4) = (crc ((bytes.drop 8).take (n - 8))).toNat ∧
        WalEntry.fromBytes ((bytes.drop 8).take (n - 8)) = .ok (some e) := by
  unfold scanRecord HEADER_SIZE
  generalize leValue (bytes.take 4) = recordLen
  constructor
  · intro h
    split at h
    · cases h
    · simp only at h
      split at h
      · cases h
      · split at h
        · cases h
        · split at h
          · cases h
          · rename_i hcrc
            have hbody : 4 + recordLen - 8 = recordLen - 4 := by omega
            split at h
            · cases h
            · cases h
            · rename_i hdecode
              cases h
              rw [hbody]
              exact ⟨rfl, by omega, by omega, not_not.mp hcrc, hdecode⟩
  · rintro ⟨rfl, hheader, hlen, hcrc, hdecode⟩
    have hbody : 4 + recordLen - 8 = recordLen - 4 := by omega
    rw [hbody] at hcrc hdecode
    rw [if_neg (by omega)]
    simp only
    rw [if_neg (by omega), if_neg (by omega), if_neg (not_not.mpr hcrc), hdecode]

/-- INTERNAL: what is taken near the front does not change when symbols are appended. -/
theorem take_drop_append {bytes : Bytes} (more : Bytes) {i n : ℕ} (h : i + n ≤ bytes.length) :
    ((bytes ++ more).drop i).take n = (bytes.drop i).take n := by
  rw [List.drop_append_of_le_length (by omega),
    List.take_append_of_le_length (by rw [List.length_drop]; omega)]

/-- The records of a log file. -/
def walFraming (crc : Bytes → UInt32) : Framing UInt8 WalEntry Defect where
  scan := scanRecord crc
  item_pos := by
    intro bytes e n h
    have hheader := (scanRecord_item.mp h).2.1
    unfold HEADER_SIZE at hheader
    omega
  item_le := fun h => (scanRecord_item.mp h).2.2.1
  item_append := by
    intro bytes e n h more
    obtain ⟨hn, hheader, hlen, hcrc, hdecode⟩ := scanRecord_item.mp h
    unfold HEADER_SIZE at hheader
    have htake : (bytes ++ more).take 4 = bytes.take 4 :=
      List.take_append_of_le_length (by omega)
    refine scanRecord_item.mpr ⟨?_, hheader, ?_, ?_, ?_⟩
    · rw [htake]
      exact hn
    · rw [List.length_append]
      omega
    · rw [take_drop_append more (by omega), take_drop_append more (by omega)]
      exact hcrc
    · rw [take_drop_append more (by omega)]
      exact hdecode
  item_take := by
    intro bytes e n h
    obtain ⟨hn, hheader, hlen, hcrc, hdecode⟩ := scanRecord_item.mp h
    unfold HEADER_SIZE at hheader
    have hbody : ((bytes.take n).drop 8).take (n - 8) = (bytes.drop 8).take (n - 8) := by
      rw [List.drop_take, List.take_take, Nat.min_self]
    have hstored : ((bytes.take n).drop 4).take 4 = (bytes.drop 4).take 4 := by
      rw [List.drop_take, List.take_take, Nat.min_eq_left (by omega)]
    refine scanRecord_item.mpr ⟨?_, hheader, ?_, ?_, ?_⟩
    · rw [List.take_take, Nat.min_eq_left (by omega)]
      exact hn
    · rw [List.length_take, Nat.min_eq_left hlen]
    · rw [hstored, hbody]
      exact hcrc
    · rw [hbody]
      exact hdecode

@[simp] theorem walFraming_scan (crc : Bytes → UInt32) :
    (walFraming crc).scan = scanRecord crc := rfl

/-- INTERNAL: a body that decodes has an operation, the length of a key and a sequence number. -/
theorem length_of_fromBytes {bytes : Bytes} {e : WalEntry}
    (h : WalEntry.fromBytes bytes = .ok (some e)) : 13 ≤ bytes.length := by
  have hend : ∀ {op : OpType} {key : String} {value : Option String} {offset : ℕ}, 5 ≤ offset →
      WalEntry.fromBytes.fromBytesEnd op key value bytes offset = .ok (some e) →
      13 ≤ bytes.length := by
    intro op key value offset hoffset hrun
    unfold WalEntry.fromBytes.fromBytesEnd at hrun
    split at hrun
    · cases hrun
    · omega
  unfold WalEntry.fromBytes at h
  dsimp only at h
  generalize (if bytes.head? = some 1 then OpType.put else OpType.delete) = op at h
  split at h
  · cases h
  obtain ⟨keyLen, -, h⟩ := exec_bind_eq_ok.mp h
  split at h
  · cases h
  obtain ⟨keyBytes, -, h⟩ := exec_bind_eq_ok.mp h
  cases hkey : fromUtf8 keyBytes with
  | none =>
    rw [hkey] at h
    cases h
  | some key =>
    rw [hkey] at h
    dsimp only at h
    split at h
    · obtain ⟨valueLen, -, h⟩ := exec_bind_eq_ok.mp h
      split at h
      · cases h
      obtain ⟨valueBytes, -, h⟩ := exec_bind_eq_ok.mp h
      cases hvalue : fromUtf8 valueBytes with
      | none =>
        rw [hvalue] at h
        cases h
      | some value =>
        rw [hvalue] at h
        exact hend (by omega) h
    · exact hend (by omega) h

/-- INTERNAL: a record is longer than a header. -/
theorem header_lt_item {crc : Bytes → UInt32} {bytes : Bytes} {e : WalEntry} {n : ℕ}
    (h : scanRecord crc bytes = .item e n) : HEADER_SIZE < n := by
  obtain ⟨-, -, hlen, -, hdecode⟩ := scanRecord_item.mp h
  have hbody := length_of_fromBytes hdecode
  rw [List.length_take, List.length_drop] at hbody
  unfold HEADER_SIZE
  omega

/-! ## Encoding and decoding -/

/-- INTERNAL: the length of the part that the checksum covers. -/
theorem body_length (e : WalEntry) :
    e.body.length = 13 + (asBytes e.key).length +
      (match e.value with | some v => 4 + (asBytes v).length | none => 0) := by
  cases hv : e.value <;> simp [WalEntry.body, hv] <;> omega

/-- INTERNAL: the length of a record does not depend on its checksum. -/
@[simp] theorem encode_length (crc : Bytes → UInt32) (e : WalEntry) :
    (e.encode crc).length = e.body.length + 8 := by
  simp [WalEntry.encode]
  omega

/-- INTERNAL: a record with a key is at least 22 bytes long. -/
theorem body_length_ge {e : WalEntry} (h : e.key ≠ "") : 14 ≤ e.body.length := by
  have hkey : (asBytes e.key).length ≠ 0 := by
    intro h0
    exact h (asBytes_eq_nil.mp (List.length_eq_zero_iff.mp h0))
  rw [body_length]
  omega

/-- INTERNAL: `to_bytes` succeeds on well-formed records. -/
theorem toBytes_ok {crc : Bytes → UInt32} {e : WalEntry} (h : WellFormed e) :
    e.toBytes crc = .ok (e.encode crc) := by
  unfold WalEntry.toBytes
  rw [assert_true h.key_ne, assert_true h.valueFits]
  rfl

/-- INTERNAL: the end of a body is a sequence number. -/
theorem fromBytesEnd_ok {bytes : Bytes} (op : OpType) (key : String) (value : Option String)
    (front : Bytes) {seq offset : ℕ} (h : bytes = front ++ leBytes 8 seq)
    (hoffset : offset = front.length) (hseq : seq < 2 ^ 64) :
    WalEntry.fromBytes.fromBytesEnd op key value bytes offset =
      .ok (some ⟨op, key, value, seq⟩) := by
  have hlen : bytes.length = offset + 8 := by simp [h, hoffset]
  unfold WalEntry.fromBytes.fromBytesEnd
  rw [if_neg (by omega), slice_middle front (leBytes 8 seq) [] (by simpa using h) hoffset
    (by simpa [hoffset] using hlen)]
  simp [leValue_leBytes (show seq < 256 ^ 8 by omega)]

/-- A record whose length fits is decoded from its body. -/
theorem fromBytes_body {e : WalEntry} (h : HasEncoding e) (hlen : e.body.length + 4 < 2 ^ 32) :
    WalEntry.fromBytes e.body = .ok (some e) := by
  obtain ⟨op, key, value, seq⟩ := e
  obtain ⟨hkey, hop, hseq⟩ := h
  have hbody := body_length ⟨op, key, value, seq⟩
  simp only at hbody hseq
  -- the head of the body is the same for puts and deletes
  obtain ⟨rest, hrest⟩ : ∃ rest, WalEntry.body ⟨op, key, value, seq⟩ =
      [op.toByte] ++ leBytes 4 (asBytes key).length ++ asBytes key ++ rest := by
    simp [WalEntry.body]
  have hopByte : (if (WalEntry.body ⟨op, key, value, seq⟩).head? = some 1 then OpType.put
      else OpType.delete) = op := by
    cases op <;> simp [hrest, OpType.toByte]
  have hkeyLen : sliceU32 (WalEntry.body ⟨op, key, value, seq⟩) 1 =
      .ok (asBytes key).length :=
    sliceU32_middle [op.toByte] (asBytes key ++ rest) (by simp [hrest]) rfl (by omega)
  have hkeyBytes : slice (WalEntry.body ⟨op, key, value, seq⟩) (1 + 4)
      (1 + 4 + (asBytes key).length) = .ok (asBytes key) :=
    slice_middle ([op.toByte] ++ leBytes 4 (asBytes key).length) (asBytes key) rest hrest
      (by simp) (by simp)
  unfold WalEntry.fromBytes
  rw [if_neg (by omega), hopByte]
  simp only [hkeyLen, hkeyBytes, exec_ok_bind, fromUtf8_asBytes]
  rw [if_neg (by omega)]
  cases value with
  | none =>
    simp only at hbody
    rw [if_neg (by omega)]
    exact fromBytesEnd_ok op key none
      ([op.toByte] ++ leBytes 4 (asBytes key).length ++ asBytes key)
      (by simp [WalEntry.body]) (by simp; omega) hseq
  | some v =>
    simp only at hbody
    have hvalueLen : sliceU32 (WalEntry.body ⟨op, key, some v, seq⟩)
        (1 + 4 + (asBytes key).length) = .ok (asBytes v).length :=
      sliceU32_middle ([op.toByte] ++ leBytes 4 (asBytes key).length ++ asBytes key)
        (asBytes v ++ leBytes 8 seq) (by simp [WalEntry.body]) (by simp; omega) (by omega)
    have hvalueBytes : slice (WalEntry.body ⟨op, key, some v, seq⟩)
        (1 + 4 + (asBytes key).length + 4)
        (1 + 4 + (asBytes key).length + 4 + (asBytes v).length) = .ok (asBytes v) :=
      slice_middle ([op.toByte] ++ leBytes 4 (asBytes key).length ++ asBytes key ++
        leBytes 4 (asBytes v).length) (asBytes v) (leBytes 8 seq) (by simp [WalEntry.body])
        (by simp; omega) (by simp; omega)
    rw [if_pos (by omega)]
    simp only [hvalueLen, hvalueBytes, exec_ok_bind, fromUtf8_asBytes]
    rw [if_neg (by omega)]
    exact fromBytesEnd_ok op key (some v)
      ([op.toByte] ++ leBytes 4 (asBytes key).length ++ asBytes key ++
        leBytes 4 (asBytes v).length ++ asBytes v)
      (by simp [WalEntry.body]) (by simp; omega) hseq

/-! ## What the parser finds at the beginning of written bytes -/

/-- INTERNAL: a record starts with the length of what follows, as far as 32 bits hold it. -/
theorem leValue_take_encode_mod (crc : Bytes → UInt32) (e : WalEntry) :
    leValue ((e.encode crc).take 4) = (e.body.length + 4) % 2 ^ 32 := by
  have htake : (e.encode crc).take 4 = leBytes 4 (e.body.length + 4) := by
    unfold WalEntry.encode
    rw [List.append_assoc, List.take_left' (by simp)]
  rw [htake, leValue_leBytes_mod]
  norm_num

theorem leValue_take_encode {crc : Bytes → UInt32} {e : WalEntry}
    (hlen : e.body.length + 4 < 2 ^ 32) :
    leValue ((e.encode crc).take 4) = e.body.length + 4 := by
  rw [leValue_take_encode_mod, Nat.mod_eq_of_lt hlen]

/-- INTERNAL: a complete record is found whatever follows it, if its length fits. -/
theorem scanRecord_whole {crc : Bytes → UInt32} {e : WalEntry} (h : HasEncoding e)
    (hshort : e.body.length + 4 < 2 ^ 32) (rest : Bytes) :
    scanRecord crc (e.encode crc ++ rest) = .item e (e.encode crc).length := by
  have hlen : (e.encode crc).length = e.body.length + 8 := encode_length crc e
  have hbody := body_length_ge h.key_ne
  have hcrc : ((e.encode crc).drop 4).take 4 = leBytes 4 (crc e.body).toNat := by
    unfold WalEntry.encode
    rw [List.append_assoc, List.drop_left' (by simp), List.take_left' (by simp)]
  have hdrop : (e.encode crc).drop 8 = e.body := by
    unfold WalEntry.encode
    rw [List.drop_left' (by simp)]
  have htakeBody : ((e.encode crc).drop 8).take ((e.encode crc).length - 8) = e.body := by
    rw [hdrop]
    exact List.take_of_length_le (by omega)
  refine scanRecord_item.mpr ⟨?_, ?_, ?_, ?_, ?_⟩
  · rw [List.take_append_of_le_length (by omega), leValue_take_encode hshort]
    omega
  · unfold HEADER_SIZE
    omega
  · simp
  · rw [take_drop_append rest (by omega), take_drop_append rest (by omega), hcrc, htakeBody,
      leValue_leBytes (show (crc e.body).toNat < 256 ^ 4 from UInt32.toNat_lt _)]
  · rw [take_drop_append rest (by omega), htakeBody]
    exact fromBytes_body h hshort

/-- A complete record is found whatever follows it. -/
theorem scanRecord_encode {crc : Bytes → UInt32} {e : WalEntry} (h : WellFormed e)
    (rest : Bytes) :
    scanRecord crc (e.encode crc ++ rest) = .item e (e.encode crc).length := by
  have hlen := h.length_lt
  exact scanRecord_whole h.hasEncoding (by omega) rest

/-- INTERNAL: fewer bytes than a header end the loop. -/
theorem scanRecord_short {crc : Bytes → UInt32} {bytes : Bytes} (h : bytes.length < HEADER_SIZE) :
    scanRecord crc bytes = .stop := if_pos h

/-- A record that is not there in full ends the loop: a header with padding, or a record that
was cut off. -/
theorem scanRecord_incomplete {crc : Bytes → UInt32} {e : WalEntry} (h : WellFormed e)
    {bytes : Bytes} (hhead : bytes.take 4 = (e.encode crc).take 4)
    (hlen : bytes.length < (e.encode crc).length) : scanRecord crc bytes = .stop := by
  have hbody := body_length_ge h.key_ne
  have hfits := h.length_lt
  rw [encode_length] at hlen
  unfold scanRecord HEADER_SIZE
  by_cases hshort : bytes.length < 13
  · rw [if_pos hshort]
  · rw [if_neg hshort]
    simp only [hhead, leValue_take_encode (show e.body.length + 4 < 2 ^ 32 by omega)]
    rw [if_neg (by omega), if_pos (by omega)]

/-- A record of the right length whose stored checksum is not that of its stored body is
corrupt, whatever follows it. -/
theorem scanRecord_corrupted {crc : Bytes → UInt32} {e : WalEntry} (h : WellFormed e)
    {bytes : Bytes} (hhead : bytes.take 4 = (e.encode crc).take 4)
    (hlen : bytes.length = (e.encode crc).length)
    (hcrc : leValue ((bytes.drop 4).take 4) ≠ (crc (bytes.drop 8)).toNat) (rest : Bytes) :
    scanRecord crc (bytes ++ rest) = .fail .corrupted := by
  have hbody := body_length_ge h.key_ne
  have hfits := h.length_lt
  rw [encode_length] at hlen
  have htake : (bytes ++ rest).take 4 = (e.encode crc).take 4 := by
    rw [List.take_append_of_le_length (by omega), hhead]
  have hdrop : ((bytes ++ rest).drop 8).take (e.body.length + 4 - 4) = bytes.drop 8 := by
    rw [take_drop_append rest (by omega)]
    exact List.take_of_length_le (by rw [List.length_drop]; omega)
  have hstored : ((bytes ++ rest).drop 4).take 4 = (bytes.drop 4).take 4 :=
    take_drop_append rest (by omega)
  unfold scanRecord HEADER_SIZE
  rw [if_neg (by rw [List.length_append]; omega)]
  simp only [htake, leValue_take_encode (show e.body.length + 4 < 2 ^ 32 by omega), hdrop, hstored]
  rw [if_neg (by omega), if_neg (by rw [List.length_append]; omega), if_pos hcrc]

/-- Records one after the other are read as such. -/
theorem reads_encode {crc : Bytes → UInt32} {es : List WalEntry} (h : ∀ e ∈ es, WellFormed e)
    (tail : Bytes) :
    (walFraming crc).Reads (es.flatMap (WalEntry.encode crc) ++ tail) es tail := by
  apply Framing.reads_flatMap
  intro e he rest
  rw [walFraming_scan]
  exact scanRecord_encode (h e he) rest

/-- INTERNAL: the parser finds no record where it stops. -/
theorem ends_of_stop {crc : Bytes → UInt32} {tail : Bytes} (h : scanRecord crc tail = .stop) :
    (walFraming crc).Ends tail := by
  intro e n hitem
  rw [walFraming_scan, h] at hitem
  cases hitem

end Rkvs.Analysis

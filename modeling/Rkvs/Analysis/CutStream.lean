import Rkvs.Analysis.BufferRuns
import Rkvs.Analysis.LogBodies
import Rkvs.Analysis.TornWrite

/-!
# Streams of records that are cut

A stream of records is cut at any place, and perhaps padded behind an incomplete record. The parser
finds the records in front of the cut, and tells what is left of the next one by its length field,
which has 32 bits.
-/

set_option autoImplicit false

namespace Rkvs.Analysis

open Rkvs.Library Rkvs.Model Rkvs.Interface

/-- What the length field of a record holds. -/
def lengthField (e : WalEntry) : ℕ := (e.body.length + 4) % 2 ^ 32

/-- The length of a record does not fit into its field. -/
def TooLong (e : WalEntry) : Prop := 2 ^ 32 ≤ e.body.length + 4

/-- The record in which a stream is cut, if it is not cut between two of them. -/
def CutIn (es : List WalEntry) (cut : ℕ) (e : WalEntry) : Prop :=
  ∃ rear, es = fitting cut es ++ e :: rear

/-- The bytes that are there of the record in which a stream is cut. -/
def restLength (es : List WalEntry) (cut : ℕ) : ℕ := cut - spanOf (fitting cut es)

/-- Zeros follow the cut only if there is a header and more bytes of the record are missing. -/
def PaddedInside (es : List WalEntry) (cut pad : ℕ) : Prop :=
  pad = 0 ∨ HEADER_SIZE ≤ restLength es cut ∧
    ∃ e, CutIn es cut e ∧ restLength es cut + pad < recordSpan e

/-- The records wholly in front of the cut are found, and the header of the next one is handed over
if it is there. -/
def CutRecognised (crc : Bytes → UInt32) (path : String) (es : List WalEntry) (cut pad : ℕ) : Prop :=
  let stream := es.flatMap (WalEntry.encode crc)
  let start := spanOf (fitting cut es)
  Segment.parseValidateWalEntries crc path (stream.take cut ++ List.replicate pad 0) =
    .ok (fitting cut es, .ok (if restLength es cut < HEADER_SIZE then none
      else some ⟨path, start, (stream.drop start).take HEADER_SIZE⟩))

/-- The lengths of the records in front of the cut fit into their fields; and if that of the next one
does not, but its header is there, its field still leads behind all that follows. -/
def LengthsTold (es : List WalEntry) (cut pad : ℕ) : Prop :=
  (∀ e ∈ fitting cut es, ¬TooLong e) ∧
    ∀ e, CutIn es cut e → HEADER_SIZE ≤ restLength es cut → TooLong e →
      HEADER_SIZE - 4 ≤ lengthField e ∧ restLength es cut + pad < 4 + lengthField e

section
variable {crc : Bytes → UInt32} {es : List WalEntry} {cut pad : ℕ}

/-! ## Where the cut falls -/

/-- INTERNAL: the length of encoded entries. -/
theorem stream_length (crc : Bytes → UInt32) (es : List WalEntry) :
    (es.flatMap (WalEntry.encode crc)).length = spanOf es := by
  induction es with
  | nil => rfl
  | cons e es ih =>
    rw [List.flatMap_cons, List.length_append, ih, encode_length]
    rfl

/-- INTERNAL: what stands behind the first entries. -/
theorem drop_stream (crc : Bytes → UInt32) {front rest : List WalEntry} (h : es = front ++ rest) :
    (es.flatMap (WalEntry.encode crc)).drop (spanOf front) =
      rest.flatMap (WalEntry.encode crc) := by
  rw [h, List.flatMap_append, List.drop_left' (stream_length ..)]

/-- INTERNAL: the length of one entry more. -/
theorem spanOf_cons (e : WalEntry) (es : List WalEntry) :
    spanOf (e :: es) = recordSpan e + spanOf es := List.sum_cons

/-- INTERNAL: the entries before a cut end before it. -/
theorem spanOf_fitting_le (cut : ℕ) (es : List WalEntry) : spanOf (fitting cut es) ≤ cut := by
  induction es generalizing cut with
  | nil => exact Nat.zero_le cut
  | cons e es ih =>
    rw [fitting]
    split_ifs with hfits
    · have hrest := ih (cut - recordSpan e)
      rw [spanOf_cons]
      omega
    · exact Nat.zero_le cut

/-- INTERNAL: a stream is cut at its end or in the first record that does not fit. -/
theorem cut_cases (hcut : cut ≤ spanOf es) :
    es = fitting cut es ∧ restLength es cut = 0 ∨
      ∃ e, CutIn es cut e ∧ restLength es cut < recordSpan e := by
  unfold restLength CutIn
  induction es generalizing cut with
  | nil =>
    have hzero : cut ≤ 0 := hcut
    exact Or.inl ⟨rfl, by omega⟩
  | cons e es ih =>
    rw [spanOf_cons] at hcut
    rw [fitting]
    split_ifs with hfits
    · rw [spanOf_cons, ← Nat.sub_sub]
      have hrest : cut - recordSpan e ≤ spanOf es := by omega
      obtain ⟨hall, hzero⟩ | ⟨f, ⟨rear, hsplit⟩, hless⟩ := ih hrest
      · exact Or.inl ⟨congrArg (e :: ·) hall, hzero⟩
      · exact Or.inr ⟨f, ⟨rear, congrArg (e :: ·) hsplit⟩, hless⟩
    · exact Or.inr ⟨e, ⟨es, rfl⟩, Nat.lt_of_le_of_lt (Nat.sub_le ..) (Nat.lt_of_not_le hfits)⟩

/-- INTERNAL: what is left of a stream behind the records that fit. -/
theorem take_stream (crc : Bytes → UInt32) {rest : List WalEntry}
    (h : es = fitting cut es ++ rest) :
    (es.flatMap (WalEntry.encode crc)).take cut =
      (fitting cut es).flatMap (WalEntry.encode crc) ++
        (rest.flatMap (WalEntry.encode crc)).take (restLength es cut) := by
  have hle := spanOf_fitting_le cut es
  unfold restLength
  conv_lhs => rw [h]
  rw [List.flatMap_append, List.take_append, stream_length,
    List.take_of_length_le (by rwa [stream_length])]

/-! ## What the parser finds -/

/-- INTERNAL: the records that are read are among the entries. -/
theorem entries_of_reads (path : String) {bytes tail : Bytes} {entries : List WalEntry}
    {result : Except RecoveryError (Option PartialWalEntry)}
    (h : (walFraming crc).Reads bytes es tail)
    (hparse : Segment.parseValidateWalEntries crc path bytes = .ok (entries, result)) :
    ∃ more, entries = es ++ more := by
  obtain ⟨es', tail', hreads, hends⟩ := @Framing.exists_reads _ _ _ (walFraming crc) tail
  refine ⟨es', ?_⟩
  have hall := h.trans hreads
  cases hscan : scanRecord crc tail' with
  | stop =>
    rw [parse_stop path hall hscan] at hparse
    cases hparse
    rfl
  | item e n => exact absurd hscan (hends e n)
  | fail defect =>
    cases defect with
    | corrupted =>
      rw [parse_corrupted path hall hscan] at hparse
      cases hparse
      rfl
    | fault f =>
      rw [parse_fault path hall hscan] at hparse
      cases hparse

/-- INTERNAL: when the parser returns the records that are read, it has stopped behind them. -/
theorem stop_of_parse (path : String) {bytes tail : Bytes} {opt : Option PartialWalEntry}
    (h : (walFraming crc).Reads bytes es tail)
    (hparse : Segment.parseValidateWalEntries crc path bytes = .ok (es, .ok opt)) :
    scanRecord crc tail = .stop := by
  cases hscan : scanRecord crc tail with
  | stop => rfl
  | item e n =>
    have hnext : (walFraming crc).Reads bytes (es ++ [e]) (tail.drop n) :=
      h.trans (.next hscan (.done _))
    obtain ⟨more, hmore⟩ := entries_of_reads path hnext hparse
    have hlen := congrArg List.length hmore
    simp only [List.length_append, List.length_singleton] at hlen
    omega
  | fail defect =>
    cases defect with
    | corrupted =>
      rw [parse_corrupted path h hscan] at hparse
      cases hparse
    | fault f =>
      rw [parse_fault path h hscan] at hparse
      cases hparse

/-- INTERNAL: a header is an incomplete record exactly if its length field leads behind the end. -/
theorem scanRecord_stop_iff {bytes : Bytes} (hheader : HEADER_SIZE ≤ bytes.length) :
    scanRecord crc bytes = .stop ↔ HEADER_SIZE - 4 ≤ leValue (bytes.take 4) ∧
      bytes.length < 4 + leValue (bytes.take 4) := by
  unfold scanRecord
  rw [if_neg (Nat.not_lt.mpr hheader)]
  dsimp only
  -- every other outcome needs the whole record to be there
  split_ifs with hsmall hlong hcrc
  · simp only [false_iff]
    omega
  · simp only [true_iff]
    omega
  · simp only [false_iff]
    omega
  · cases WalEntry.fromBytes ((bytes.drop 8).take (leValue (bytes.take 4) - 4)) with
    | error f =>
      simp only [reduceCtorEq, false_iff]
      omega
    | ok found =>
      cases found with
      | none =>
        simp only [reduceCtorEq, false_iff]
        omega
      | some e =>
        simp only [reduceCtorEq, false_iff]
        omega

/-- INTERNAL: a body is as long as that of the record it is decoded to. -/
theorem body_length_of_fromBytes {body : Bytes} {e : WalEntry} (hshort : body.length < 2 ^ 32)
    (h : WalEntry.fromBytes body = .ok (some e)) : e.body.length = body.length := by
  obtain ⟨op, key, value, more, rfl, hmore, hnone⟩ :=
    @layout_of_fromBytes body (by rw [h]; exact fun h => nomatch h)
  rw [fromBytes_layout hshort hmore hnone] at h
  by_cases height : more.length = 8
  · rw [if_pos height] at h
    cases h
    rw [body_length, List.length_append, height]
    cases value with
    | none =>
      simp [bodyFront]
      omega
    | some v =>
      simp [bodyFront]
      omega
  · rw [if_neg height] at h
    cases h

/-- INTERNAL: records whose lengths fit are read. -/
theorem reads_short {front : List WalEntry} (hfront : ∀ e ∈ front, HasEncoding e)
    (hshort : ∀ e ∈ front, ¬TooLong e) (tail : Bytes) :
    (walFraming crc).Reads (front.flatMap (WalEntry.encode crc) ++ tail) front tail := by
  apply Framing.reads_flatMap
  intro e he rest
  rw [walFraming_scan]
  exact scanRecord_whole (hfront e he) (Nat.lt_of_not_le (hshort e he)) rest

/-- INTERNAL: a record that is too long is not read as itself. -/
theorem tooLong_not_read {e : WalEntry} (hlong : TooLong e) (more : Bytes) (n : ℕ) :
    scanRecord crc (e.encode crc ++ more) ≠ .item e n := by
  intro hscan
  obtain ⟨hn, -, hle, -, hdecode⟩ := scanRecord_item.mp hscan
  rw [List.take_append_of_le_length (by rw [encode_length]; omega), leValue_take_encode_mod] at hn
  have hfield : (e.body.length + 4) % 2 ^ 32 < 2 ^ 32 := Nat.mod_lt _ (by norm_num)
  have hbody : (((e.encode crc ++ more).drop 8).take (n - 8)).length = n - 8 := by
    rw [List.length_take, List.length_drop]
    omega
  have hsame := body_length_of_fromBytes (by omega) hdecode
  unfold TooLong at hlong
  omega

/-- INTERNAL: no stream is recognised with a record that is too long in front of the cut. -/
theorem short_of_recognised (path : String) (hes : ∀ e ∈ es, HasEncoding e) {tail : Bytes}
    {opt : Option PartialWalEntry}
    (hparse : Segment.parseValidateWalEntries crc path
      (es.flatMap (WalEntry.encode crc) ++ tail) = .ok (es, .ok opt)) :
    ∀ e ∈ es, ¬TooLong e := by
  by_contra hlong
  obtain ⟨front, e, rear, rfl, hfront, he⟩ := exists_first_not hlong
  have hreads := @reads_short crc front (fun f hf => hes f (List.mem_append_left _ hf)) hfront
    (e.encode crc ++ (rear.flatMap (WalEntry.encode crc) ++ tail))
  have hbytes : (front ++ e :: rear).flatMap (WalEntry.encode crc) ++ tail =
      front.flatMap (WalEntry.encode crc) ++
        (e.encode crc ++ (rear.flatMap (WalEntry.encode crc) ++ tail)) := by
    simp only [List.flatMap_append, List.flatMap_cons, List.append_assoc]
  rw [hbytes] at hparse
  have hmore : ∀ f : WalEntry, ∀ rest, front ++ e :: rear = front ++ [f] ++ rest → e = f := by
    intro f rest hsplit
    rw [List.append_assoc] at hsplit
    exact List.head_eq_of_cons_eq (List.append_cancel_left hsplit)
  cases hscan : scanRecord crc (e.encode crc ++ (rear.flatMap (WalEntry.encode crc) ++ tail)) with
  | stop =>
    rw [parse_stop path hreads hscan] at hparse
    have hlen := congrArg (fun r => r.toOption.map fun p => p.1.length) hparse
    simp [Except.toOption] at hlen
  | item f n =>
    obtain ⟨rest, hrest⟩ := entries_of_reads path (hreads.trans (.next hscan (.done _))) hparse
    obtain rfl := hmore f rest hrest
    exact tooLong_not_read (not_not.mp he) _ n hscan
  | fail defect =>
    cases defect with
    | corrupted =>
      rw [parse_corrupted path hreads hscan, Except.ok.injEq, Prod.mk.injEq] at hparse
      cases hparse.2
    | fault f =>
      rw [parse_fault path hreads hscan] at hparse
      cases hparse

/-- A stream that is cut, and padded at most inside a record, is recognised exactly if the lengths
in it are told by their fields.
SOURCE: wal/segment.rs:205-254, 272-361 -/
theorem cut_recognised_iff (path : String) (hes : ∀ e ∈ es, HasEncoding e)
    (hcut : cut ≤ (es.flatMap (WalEntry.encode crc)).length) (hpad : PaddedInside es cut pad) :
    CutRecognised crc path es cut pad ↔ LengthsTold es cut pad := by
  obtain ⟨rest, hrest⟩ := fitting_prefix cut es
  have hfit : ∀ e ∈ fitting cut es, HasEncoding e := fun e he =>
    hes e (hrest ▸ List.mem_append_left _ he)
  unfold CutRecognised LengthsTold
  dsimp only
  rw [stream_length] at hcut
  rw [take_stream crc hrest, List.append_assoc]
  by_cases hshort : ∀ e ∈ fitting cut es, ¬TooLong e
  swap
  · exact iff_of_false (fun h => hshort (short_of_recognised path hfit h)) fun h => hshort h.1
  rw [and_iff_right hshort]
  have hreads := @reads_short crc (fitting cut es) hfit hshort
  by_cases hheader : restLength es cut < HEADER_SIZE
  · -- too little is left for a header, and nothing is put behind it
    have hnone : pad = 0 := by
      obtain hzero | ⟨hmore, -⟩ := hpad
      · exact hzero
      · omega
    have hlen : ((rest.flatMap (WalEntry.encode crc)).take (restLength es cut) ++
        List.replicate pad 0).length < HEADER_SIZE := by
      rw [hnone, List.replicate_zero, List.append_nil, List.length_take]
      omega
    refine iff_of_true ?_ fun _ _ hmore => absurd hmore (Nat.not_le.mpr hheader)
    rw [if_pos hheader, parse_stop path (hreads _) (scanRecord_short hlen), tailReport,
      if_pos hlen]
  · rw [if_neg hheader]
    obtain ⟨-, hzero⟩ | ⟨e, ⟨rear, hsplit⟩, hless⟩ := cut_cases hcut
    · rw [hzero] at hheader
      exact absurd (by decide) hheader
    have hthis : ∀ f, CutIn es cut f → f = e := by
      rintro f ⟨rear', hsplit'⟩
      exact List.head_eq_of_cons_eq (List.append_cancel_left (hsplit'.symm.trans hsplit))
    obtain rfl : rest = e :: rear := List.append_cancel_left (hrest.symm.trans hsplit)
    have hspan : (e.encode crc).length = recordSpan e := encode_length crc e
    have htake : ((e :: rear).flatMap (WalEntry.encode crc)).take (restLength es cut) =
        (e.encode crc).take (restLength es cut) := by
      rw [List.flatMap_cons, List.take_append_of_le_length (by omega)]
    rw [htake]
    generalize htail : (e.encode crc).take (restLength es cut) ++ List.replicate pad 0 = tail
    have hlen : tail.length = restLength es cut + pad := by
      rw [← htail, List.length_append, List.length_take, List.length_replicate]
      omega
    have hfront : ∀ n ≤ HEADER_SIZE, tail.take n = (e.encode crc).take n := by
      intro n hn
      rw [← htail, List.take_append_of_le_length (by rw [List.length_take]; omega),
        List.take_take, Nat.min_eq_left (by omega)]
    have hfield : leValue (tail.take 4) = lengthField e := by
      rw [hfront 4 (by decide), leValue_take_encode_mod]
      rfl
    have hstop := @scanRecord_stop_iff crc tail (by omega)
    rw [hfield, hlen] at hstop
    constructor
    · intro hparse f hf _ _
      rw [hthis f hf]
      exact hstop.mp (stop_of_parse path (hreads tail) hparse)
    · intro htold
      have htold : HEADER_SIZE - 4 ≤ lengthField e ∧ restLength es cut + pad < 4 + lengthField e := by
        by_cases hlong : TooLong e
        · exact htold e ⟨rear, hsplit⟩ (Nat.not_lt.mp hheader) hlong
        · have hfits : lengthField e = e.body.length + 4 :=
            Nat.mod_eq_of_lt (Nat.lt_of_not_le hlong)
          have hbody := body_length_ge (hes e (hsplit ▸ List.mem_append_right _
            (List.mem_cons_self ..))).key_ne
          have hinside : restLength es cut + pad < recordSpan e := by
            obtain hzero | ⟨-, f, hf, hinside⟩ := hpad
            · omega
            · rwa [hthis f hf] at hinside
          unfold recordSpan at hinside
          unfold HEADER_SIZE
          omega
      have hplace : ((fitting cut es).flatMap (WalEntry.encode crc) ++ tail).length - tail.length =
          spanOf (fitting cut es) := by
        rw [List.length_append, Nat.add_sub_cancel, stream_length]
      have hbytes : tail.take HEADER_SIZE =
          ((es.flatMap (WalEntry.encode crc)).drop (spanOf (fitting cut es))).take HEADER_SIZE := by
        rw [hfront _ (Nat.le_refl _), drop_stream crc hsplit, List.flatMap_cons,
          List.take_append_of_le_length (by omega)]
      rw [parse_stop path (hreads tail) (hstop.mpr htold), tailReport, if_neg (by omega), hplace,
        hbytes]

end

/-- INTERNAL: two puts. -/
def cutPuts : List WalEntry := [⟨.put, "a", some "x", 0⟩, ⟨.put, "b", some "y", 27⟩]

/-- The header of the second record with four zeros behind it. -/
theorem cut_recognised_two : CutRecognised (fun _ => 0) "" cutPuts 40 4 ↔ LengthsTold cutPuts 40 4 := by
  apply cut_recognised_iff
  · intro e he
    have hall : ∀ e ∈ cutPuts, e.key ≠ "" ∧ e.valueFits = true ∧ e.sequenceNumber < 2 ^ 64 := by
      decide
    obtain ⟨hkey, hvalue, hnumber⟩ := hall e he
    exact ⟨hkey, hvalue, hnumber⟩
  · decide
  · exact Or.inr ⟨by decide, _, ⟨[], rfl⟩, by decide⟩

/-- A record with a key of `n` bytes. -/
def longDelete (n : ℕ) : WalEntry := ⟨.delete, longValue n, none, 1⟩

/-- INTERNAL: the length of its record. -/
theorem longDelete_span (n : ℕ) : recordSpan (longDelete n) = n + 21 := by
  have hbody := body_length (longDelete n)
  have hkey : (asBytes (longDelete n).key).length = n := longValue_length n
  have hnone : (longDelete n).value = none := rfl
  rw [hkey, hnone] at hbody
  unfold recordSpan
  dsimp only at hbody
  omega

/-- INTERNAL: it can be encoded. -/
theorem longDelete_hasEncoding {n : ℕ} (hn : 0 < n) : HasEncoding (longDelete n) := by
  refine ⟨fun hempty => ?_, rfl, Nat.one_lt_two_pow (by decide)⟩
  have hkey : (asBytes (longDelete n).key).length = n := longValue_length n
  rw [hempty] at hkey
  exact absurd hkey (Nat.ne_of_lt hn)

/-- INTERNAL: the length of the stream. -/
theorem longDelete_stream_length (crc : Bytes → UInt32) (n : ℕ) :
    ([longDelete n].flatMap (WalEntry.encode crc)).length = n + 21 := by
  rw [stream_length, spanOf_cons, longDelete_span]
  rfl

/-- INTERNAL: a length field has no room for it. -/
theorem longDelete_not_told {n : ℕ} (hlong : 2 ^ 32 ≤ n + 17) :
    ¬LengthsTold [longDelete n] (n + 21) 0 := by
  have hspan := longDelete_span n
  have hfitting : fitting (n + 21) [longDelete n] = [longDelete n] := by
    rw [fitting, if_pos (Nat.le_of_eq hspan)]
    rfl
  intro htold
  apply htold.1 (longDelete n) (by rw [hfitting]; exact List.mem_singleton_self _)
  unfold recordSpan at hspan
  unfold TooLong
  omega

/-- A record with a key of nearly 4 GiB, whose length field is 0. -/
theorem long_record_corrupted : ¬∀ (crc : Bytes → UInt32) (path : String) (es : List WalEntry)
    (cut pad : ℕ), (∀ e ∈ es, HasEncoding e) →
    cut ≤ (es.flatMap (WalEntry.encode crc)).length → PaddedInside es cut pad →
    CutRecognised crc path es cut pad := by
  intro h
  obtain ⟨n, hn⟩ : ∃ n, n = 4294967279 := ⟨_, rfl⟩
  have hall : ∀ e ∈ [longDelete n], HasEncoding e := by
    intro e he
    rw [List.mem_singleton.mp he]
    exact longDelete_hasEncoding (by omega)
  have hlength := Nat.le_of_eq (longDelete_stream_length (fun _ => 0) n).symm
  have hrecognised := h (fun _ => 0) "" _ _ 0 hall hlength (Or.inl rfl)
  exact longDelete_not_told (by omega)
    ((cut_recognised_iff "" hall hlength (Or.inl rfl)).mp hrecognised)

end Rkvs.Analysis

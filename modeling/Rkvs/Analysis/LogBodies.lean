import Rkvs.Analysis.WalParser
import Rkvs.Interface.LogBodies

/-!
# Log files with any contents

The parser of log files checks all lengths but one: what is left of a body behind its value has to be
a sequence number, and with more bytes than that the copy into the buffer of eight bytes panics.
-/

set_option autoImplicit false

namespace Rkvs.Analysis

open Rkvs.Library Rkvs.Model Rkvs.Interface

/-! ## Bodies -/

/-- INTERNAL: what is left has to be the sequence number.
SOURCE: wal/segment.rs:347-353 -/
theorem fromBytesEnd_eq {op : OpType} {key : String} {value : Option String} (front : Bytes)
    {bytes more : Bytes} (h : bytes = front ++ more) (hmore : 8 ≤ more.length) {offset : ℕ}
    (hoffset : offset = front.length) :
    WalEntry.fromBytes.fromBytesEnd op key value bytes offset =
      if more.length = 8 then .ok (some ⟨op, key, value, leValue more⟩) else .error .panic := by
  have hlen : bytes.length = offset + more.length := by rw [h, List.length_append, hoffset]
  unfold WalEntry.fromBytes.fromBytesEnd
  rw [if_neg (by omega), slice_middle front more [] (by rw [h, List.append_nil]) hoffset
    (by rw [hlen, hoffset]), exec_ok_bind]
  by_cases height : more.length = 8
  · rw [if_pos height, assert_true height]
    rfl
  · have hassert : assert (more.length = 8) = .error .panic := if_neg height
    rw [if_neg height, hassert]
    rfl

/-- A body in the right layout is decoded, and makes the decoder panic if too much is left.
SOURCE: wal/segment.rs:314-361 -/
theorem fromBytes_layout {op : UInt8} {key : String} {value : Option String} {more : Bytes}
    (hshort : (bodyFront op key value ++ more).length < 2 ^ 32) (hmore : 8 ≤ more.length)
    (hnone : value = none → more.length = 8) :
    WalEntry.fromBytes (bodyFront op key value ++ more) =
      if more.length = 8 then
        .ok (some ⟨if op = 1 then .put else .delete, key, value, leValue more⟩)
      else .error .panic := by
  obtain ⟨rear, hrear⟩ : ∃ rear, bodyFront op key value ++ more =
      [op] ++ leBytes 4 (asBytes key).length ++ asBytes key ++ rear := by
    simp [bodyFront]
  have hlen : (bodyFront op key value ++ more).length = 5 + (asBytes key).length +
      (value.elim [] fun v => leBytes 4 (asBytes v).length ++ asBytes v).length + more.length := by
    unfold bodyFront
    simp
    omega
  have hop : (if (bodyFront op key value ++ more).head? = some 1 then OpType.put
      else OpType.delete) = if op = 1 then .put else .delete := by
    rw [hrear]
    simp
  have hkeyLen : sliceU32 (bodyFront op key value ++ more) 1 = .ok (asBytes key).length :=
    sliceU32_middle [op] (asBytes key ++ rear) (by simp [hrear]) rfl (by omega)
  have hkeyBytes : slice (bodyFront op key value ++ more) (1 + 4) (1 + 4 + (asBytes key).length) =
      .ok (asBytes key) :=
    slice_middle ([op] ++ leBytes 4 (asBytes key).length) (asBytes key) rear hrear (by simp)
      (by simp)
  unfold WalEntry.fromBytes
  rw [if_neg (by omega), hop]
  simp only [hkeyLen, hkeyBytes, exec_ok_bind, fromUtf8_asBytes]
  rw [if_neg (by omega)]
  cases value with
  | none =>
    rw [Option.elim_none, List.length_nil] at hlen
    rw [if_neg (by rw [hlen, hnone rfl]; omega)]
    exact fromBytesEnd_eq (bodyFront op key none) rfl hmore (by simp [bodyFront]; omega)
  | some v =>
    have hvalue : (leBytes 4 (asBytes v).length ++ asBytes v).length = 4 + (asBytes v).length := by
      simp
    rw [Option.elim_some, hvalue] at hlen
    have hvalueLen : sliceU32 (bodyFront op key (some v) ++ more) (1 + 4 + (asBytes key).length) =
        .ok (asBytes v).length :=
      sliceU32_middle ([op] ++ leBytes 4 (asBytes key).length ++ asBytes key)
        (asBytes v ++ more) (by simp [bodyFront]) (by simp; omega) (by omega)
    have hvalueBytes : slice (bodyFront op key (some v) ++ more)
        (1 + 4 + (asBytes key).length + 4)
        (1 + 4 + (asBytes key).length + 4 + (asBytes v).length) = .ok (asBytes v) :=
      slice_middle ([op] ++ leBytes 4 (asBytes key).length ++ asBytes key ++
        leBytes 4 (asBytes v).length) (asBytes v) more (by simp [bodyFront]) (by simp; omega)
        (by simp; omega)
    rw [if_pos (by omega)]
    simp only [hvalueLen, hvalueBytes, exec_ok_bind, fromUtf8_asBytes]
    rw [if_neg (by omega)]
    exact fromBytesEnd_eq (bodyFront op key (some v)) rfl hmore (by simp [bodyFront]; omega)

/-- INTERNAL: a decoder that does not reject the end has enough bytes left.
SOURCE: wal/segment.rs:347-349 -/
theorem end_of_fromBytesEnd {op : OpType} {key : String} {value : Option String} {bytes : Bytes}
    {offset : ℕ}
    (h : WalEntry.fromBytes.fromBytesEnd op key value bytes offset ≠ .ok none) :
    offset + 8 ≤ bytes.length := by
  by_contra hshort
  apply h
  unfold WalEntry.fromBytes.fromBytesEnd
  rw [if_pos (by omega)]
  rfl

/-- A body that the decoder does not reject has the right layout.
SOURCE: wal/segment.rs:314-361 -/
theorem layout_of_fromBytes {body : Bytes} (h : WalEntry.fromBytes body ≠ .ok none) :
    ∃ op key value more, body = bodyFront op key value ++ more ∧ 8 ≤ more.length ∧
      (value = none → more.length = 8) := by
  unfold WalEntry.fromBytes at h
  by_cases hfive : body.length < 1 + 4
  · rw [if_pos hfive] at h
    exact absurd rfl h
  rw [if_neg hfive] at h
  obtain ⟨op, rear, rfl⟩ := List.exists_cons_of_ne_nil (l := body) (by rintro rfl; simp at hfive)
  have hkeyLen : sliceU32 (op :: rear) 1 = .ok (leValue (((op :: rear).drop 1).take 4)) :=
    sliceU32_ok (by omega)
  simp only [hkeyLen, exec_ok_bind] at h
  by_cases hkeyIn : (op :: rear).length < 1 + 4 + leValue (((op :: rear).drop 1).take 4)
  · rw [if_pos hkeyIn] at h
    exact absurd rfl h
  rw [if_neg hkeyIn, slice_ok (by omega) (by omega), exec_ok_bind, Nat.add_sub_cancel_left] at h
  cases hkey : fromUtf8 (((op :: rear).drop (1 + 4)).take
      (leValue (((op :: rear).drop 1).take 4))) with
  | none =>
    rw [hkey] at h
    exact absurd rfl h
  | some key =>
    rw [hkey] at h
    dsimp only at h
    obtain ⟨hfront, hkeyLength⟩ := split_string (by omega) hkey
    rw [← hkeyLength] at h hfront hkeyIn
    rw [List.drop_succ_cons, List.drop_zero] at hfront
    by_cases hvalue : 1 + 4 + (asBytes key).length + 8 < (op :: rear).length
    · rw [if_pos hvalue] at h
      have hvalueLen : sliceU32 (op :: rear) (1 + 4 + (asBytes key).length) =
          .ok (leValue (((op :: rear).drop (1 + 4 + (asBytes key).length)).take 4)) :=
        sliceU32_ok (by omega)
      rw [hvalueLen, exec_ok_bind] at h
      by_cases hvalueIn : (op :: rear).length < 1 + 4 + (asBytes key).length + 4 +
          leValue (((op :: rear).drop (1 + 4 + (asBytes key).length)).take 4)
      · rw [if_pos hvalueIn] at h
        exact absurd rfl h
      rw [if_neg hvalueIn, slice_ok (by omega) (by omega), exec_ok_bind,
        Nat.add_sub_cancel_left] at h
      cases hv : fromUtf8 (((op :: rear).drop (1 + 4 + (asBytes key).length + 4)).take
          (leValue (((op :: rear).drop (1 + 4 + (asBytes key).length)).take 4))) with
      | none =>
        rw [hv] at h
        exact absurd rfl h
      | some v =>
        rw [hv] at h
        have hend := end_of_fromBytesEnd h
        obtain ⟨hrear, hvalueLength⟩ := split_string (by omega) hv
        refine ⟨op, key, some v, (op :: rear).drop (1 + 4 + (asBytes key).length + 4 +
          leValue (((op :: rear).drop (1 + 4 + (asBytes key).length)).take 4)), ?_, ?_,
          fun hnone => nomatch hnone⟩
        · conv_lhs => rw [hfront, hrear]
          simp [bodyFront]
        · rw [List.length_drop]
          omega
    · rw [if_neg hvalue] at h
      have hend := end_of_fromBytesEnd h
      have hrest : ((op :: rear).drop (1 + 4 + (asBytes key).length)).length = 8 := by
        rw [List.length_drop]
        omega
      refine ⟨op, key, none, (op :: rear).drop (1 + 4 + (asBytes key).length), ?_, by omega,
        fun _ => hrest⟩
      conv_lhs => rw [hfront]
      simp [bodyFront]

/-- A body is decoded if and only if it is complete. -/
theorem fromBytes_some_iff {body : Bytes} (hshort : body.length + 4 < 2 ^ 32) :
    (∃ e, WalEntry.fromBytes body = .ok (some e)) ↔ CompleteBody body := by
  constructor
  · rintro ⟨e, he⟩
    obtain ⟨op, key, value, more, rfl, hmore, hnone⟩ :=
      @layout_of_fromBytes body (by rw [he]; exact fun h => nomatch h)
    rw [fromBytes_layout (by omega) hmore hnone] at he
    by_cases height : more.length = 8
    · exact ⟨hshort, op, key, value, more, rfl, height⟩
    · rw [if_neg height] at he
      cases he
  · rintro ⟨-, op, key, value, number, rfl, height⟩
    exact ⟨_, (fromBytes_layout (by omega) height.ge fun _ => height).trans (if_pos height)⟩

/-- The decoder fails if and only if too many bytes are left, and then it panics. -/
theorem fromBytes_error_iff {body : Bytes} (hshort : body.length + 4 < 2 ^ 32) (f : Fault) :
    WalEntry.fromBytes body = .error f ↔ f = .panic ∧ TrailingBody body := by
  constructor
  · intro he
    obtain ⟨op, key, value, more, rfl, hmore, hnone⟩ :=
      @layout_of_fromBytes body (by rw [he]; exact fun h => nomatch h)
    rw [fromBytes_layout (by omega) hmore hnone] at he
    by_cases height : more.length = 8
    · rw [if_pos height] at he
      cases he
    · rw [if_neg height] at he
      cases he
      cases value with
      | none => exact absurd (hnone rfl) height
      | some v => exact ⟨rfl, hshort, op, key, v, more, rfl, by omega⟩
  · rintro ⟨rfl, -, op, key, v, more, rfl, hlong⟩
    have hnone : some v = none → more.length = 8 := fun h => nomatch h
    exact (fromBytes_layout (by omega) hlong.le hnone).trans (if_neg hlong.ne')

/-! ## Records -/

section
variable {crc : Bytes → UInt32}

/-- What the parser makes of a body, by what the decoder returns for it. -/
def foundIn (length : ℕ) : Exec (Option WalEntry) → Scan WalEntry Defect
  | .error f => .fail (.fault f)
  | .ok none => .fail .corrupted
  | .ok (some entry) => .item entry length

@[simp] theorem recordOf_length (body : Bytes) : (recordOf crc body).length = body.length + 8 := by
  simp [recordOf]
  omega

/-- INTERNAL: what the parser finds where a record stands. -/
theorem scanRecord_recordOf {body : Bytes} (hshort : body.length + 4 < 2 ^ 32)
    (hlong : 5 ≤ body.length) (rest : Bytes) :
    scanRecord crc (recordOf crc body ++ rest) =
      foundIn (body.length + 8) (WalEntry.fromBytes body) := by
  have hlen := @List.length_append _ (recordOf crc body) rest
  rw [recordOf_length] at hlen
  have htake : leValue ((recordOf crc body ++ rest).take 4) = body.length + 4 := by
    unfold recordOf
    rw [List.append_assoc, List.append_assoc, List.take_left' (by simp),
      leValue_leBytes (by omega)]
  have hstored : leValue (((recordOf crc body ++ rest).drop 4).take 4) = (crc body).toNat := by
    unfold recordOf
    rw [List.append_assoc, List.append_assoc, List.drop_left' (by simp),
      List.take_left' (by simp), leValue_leBytes (show _ < 256 ^ 4 from UInt32.toNat_lt _)]
  have hbody : ((recordOf crc body ++ rest).drop 8).take body.length = body := by
    unfold recordOf
    rw [List.append_assoc, List.drop_left' (by simp), List.take_left]
  unfold scanRecord HEADER_SIZE
  rw [if_neg (by omega)]
  dsimp only
  rw [htake, if_neg (by omega), if_neg (by omega), Nat.add_sub_cancel, hbody,
    if_neg (not_not.mpr hstored), show 4 + (body.length + 4) = body.length + 8 by omega]
  cases WalEntry.fromBytes body with
  | error f => rfl
  | ok found => cases found <;> rfl

/-- INTERNAL: where the parser decodes a body there is a record.
SOURCE: wal/segment.rs:216-240 -/
theorem exists_recordOf {bytes : Bytes} (h : scanRecord crc bytes ≠ .stop)
    (h' : scanRecord crc bytes ≠ .fail .corrupted) : ∃ body rest, 5 ≤ body.length ∧
      body.length + 4 < 2 ^ 32 ∧ bytes = recordOf crc body ++ rest := by
  unfold scanRecord HEADER_SIZE at h h'
  by_cases hheader : bytes.length < 13
  · exact absurd (if_pos hheader) h
  rw [if_neg hheader] at h h'
  dsimp only at h h'
  by_cases hsmall : leValue (bytes.take 4) < 13 - 4
  · exact absurd (if_pos hsmall) h'
  rw [if_neg hsmall] at h h'
  by_cases hlong : bytes.length < 4 + leValue (bytes.take 4)
  · exact absurd (if_pos hlong) h
  rw [if_neg hlong] at h h'
  by_cases hcrc : leValue ((bytes.drop 4).take 4) ≠
      (crc ((bytes.drop 8).take (leValue (bytes.take 4) - 4))).toNat
  · exact absurd (if_pos hcrc) h'
  have hfield := leValue_lt (bytes.take 4)
  have hfour : (bytes.take 4).length = 4 := by
    rw [List.length_take]
    omega
  have hfour' : ((bytes.drop 4).take 4).length = 4 := by
    rw [List.length_take, List.length_drop]
    omega
  have hbody : ((bytes.drop 8).take (leValue (bytes.take 4) - 4)).length + 4 =
      leValue (bytes.take 4) := by
    rw [List.length_take, List.length_drop]
    omega
  rw [hfour] at hfield
  refine ⟨(bytes.drop 8).take (leValue (bytes.take 4) - 4),
    bytes.drop (8 + (leValue (bytes.take 4) - 4)), by omega, by omega, ?_⟩
  unfold recordOf
  have hlenField := leBytes_leValue (bytes.take 4)
  have hcrcField := leBytes_leValue ((bytes.drop 4).take 4)
  rw [hfour] at hlenField
  rw [hfour'] at hcrcField
  rw [hbody, ← not_not.mp hcrc, hlenField, hcrcField, List.append_assoc, ← List.drop_drop,
    List.take_append_drop, List.append_assoc, show (8 : ℕ) = 4 + 4 from rfl, ← List.drop_drop,
    List.take_append_drop, List.take_append_drop]

theorem length_ge_of_front {op : UInt8} {key : String} {value : Option String} {more : Bytes} :
    5 ≤ (bodyFront op key value ++ more).length := by
  simp [bodyFront]

/-- INTERNAL: complete records are read one after the other. -/
theorem reads_records {bodies : List Bytes} (h : ∀ b ∈ bodies, CompleteBody b) (tail : Bytes) :
    ∃ es, (walFraming crc).Reads (bodies.flatMap (recordOf crc) ++ tail) es tail := by
  induction bodies with
  | nil => exact ⟨[], .done tail⟩
  | cons body bodies ih =>
    obtain ⟨es, hes⟩ := ih fun b hb => h b (List.mem_cons_of_mem _ hb)
    have hbody := h body (List.mem_cons_self ..)
    obtain ⟨e, he⟩ := (fromBytes_some_iff hbody.short).mpr hbody
    obtain ⟨op, key, value, number, hlayout, -⟩ := hbody.layout
    have hscan := @scanRecord_recordOf crc body hbody.short
      (by rw [hlayout]; exact length_ge_of_front) (bodies.flatMap (recordOf crc) ++ tail)
    rw [he] at hscan
    refine ⟨e :: es, ?_⟩
    rw [List.flatMap_cons, List.append_assoc]
    refine .next hscan ?_
    rwa [List.drop_left' (by simp)]

/-- INTERNAL: what was read are complete records. -/
theorem exists_bodies {bytes tail : Bytes} {es : List WalEntry}
    (h : (walFraming crc).Reads bytes es tail) : ∃ bodies : List Bytes,
      (∀ b ∈ bodies, CompleteBody b) ∧ bytes = bodies.flatMap (recordOf crc) ++ tail := by
  induction h with
  | done bytes => exact ⟨[], fun b hb => absurd hb List.not_mem_nil, rfl⟩
  | @next bytes e n es tail head _ ih =>
    obtain ⟨bodies, hbodies, hrest⟩ := ih
    rw [walFraming_scan] at head
    obtain ⟨body, rest, hlong, hshort, rfl⟩ :=
      @exists_recordOf crc bytes (by rw [head]; exact fun h => nomatch h)
        (by rw [head]; exact fun h => nomatch h)
    rw [scanRecord_recordOf hshort hlong] at head
    cases hdecode : WalEntry.fromBytes body with
    | error f =>
      rw [hdecode] at head
      cases head
    | ok found =>
      cases found with
      | none =>
        rw [hdecode] at head
        cases head
      | some entry =>
        rw [hdecode] at head
        cases head
        rw [List.drop_left' (by simp)] at hrest
        refine ⟨body :: bodies, ?_, ?_⟩
        · intro b hb
          obtain rfl | hb := List.mem_cons.mp hb
          · exact (fromBytes_some_iff hshort).mp ⟨_, hdecode⟩
          · exact hbodies b hb
        · rw [hrest, List.flatMap_cons, List.append_assoc]

/-! ## Files -/

/-- The parser returns unless it gets to a record with too many bytes behind its value.
SOURCE: wal/segment.rs:205-254, 314-361 -/
theorem parser_returns_iff (path : String) (bytes : Bytes) :
    ParserReturns crc path bytes ↔ ¬ReachesTrailing crc bytes := by
  constructor
  · rintro ⟨entries, hreturns⟩ ⟨bodies, body, rest, hbodies, hbody, rfl⟩
    rw [List.append_assoc] at hreturns
    obtain ⟨es, hreads⟩ := @reads_records crc bodies hbodies (recordOf crc body ++ rest)
    obtain ⟨op, key, value, more, hlayout, -⟩ := hbody.layout
    have hscan := @scanRecord_recordOf crc body hbody.short
      (by rw [hlayout]; exact length_ge_of_front) rest
    rw [(fromBytes_error_iff hbody.short _).mpr ⟨rfl, hbody⟩] at hscan
    rw [parse_fault path hreads hscan] at hreturns
    obtain ⟨_, hok⟩ | ⟨_, herror⟩ := hreturns
    · cases hok
    · cases herror
  · intro hnot
    obtain ⟨es, tail, hreads, hends⟩ := Framing.exists_reads (F := walFraming crc) bytes
    cases hscan : scanRecord crc tail with
    | stop => exact ⟨es, Or.inl ⟨_, parse_stop path hreads hscan⟩⟩
    | item e n => exact absurd hscan (hends e n)
    | fail d =>
      cases d with
      | corrupted => exact ⟨es, Or.inr ⟨_, parse_corrupted path hreads hscan⟩⟩
      | fault f =>
        obtain ⟨bodies, hbodies, hbytes⟩ := exists_bodies hreads
        obtain ⟨body, rest, hlong, hshort, rfl⟩ :=
          @exists_recordOf crc tail (by rw [hscan]; exact fun h => nomatch h)
            (by rw [hscan]; exact fun h => nomatch h)
        rw [scanRecord_recordOf hshort hlong] at hscan
        cases hdecode : WalEntry.fromBytes body with
        | ok found =>
          rw [hdecode] at hscan
          cases found <;> cases hscan
        | error f' =>
          obtain ⟨-, htrailing⟩ := (fromBytes_error_iff hshort f').mp hdecode
          refine absurd ⟨bodies, body, rest, hbodies, htrailing, ?_⟩ hnot
          rw [hbytes, List.append_assoc]

end

/-- A put of the key k with an empty value, and with nine bytes behind it. -/
def nineLeft : Bytes := bodyFront 1 "k" (some "") ++ List.replicate 9 0

/-- The file with this record alone makes the parser panic, whatever the checksum is. -/
theorem nineLeft_panics : ¬∀ (crc : Bytes → UInt32) (path : String) (bytes : Bytes),
    ParserReturns crc path bytes := by
  intro h
  refine (@parser_returns_iff (fun _ => 0) "000000010000000000000000.wal"
    (recordOf (fun _ => 0) nineLeft)).mp (h _ _ _)
    ⟨[], nineLeft, [], fun b hb => absurd hb List.not_mem_nil, ⟨by decide, ?_⟩, ?_⟩
  · exact ⟨1, "k", "", List.replicate 9 0, rfl, by decide⟩
  · rw [List.flatMap_nil, List.nil_append, List.append_nil]

end Rkvs.Analysis

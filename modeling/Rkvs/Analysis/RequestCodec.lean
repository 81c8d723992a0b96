import Rkvs.Analysis.FrameParser

/-!
# Encoding and decoding requests

What the server reads from the bytes of a request is the request, if its id reads the same in
both byte orders and the length of its payload fits into 32 bits.
-/

set_option autoImplicit false

namespace Rkvs.Analysis

open Rkvs.Library Rkvs.Model Rkvs.Interface

section
variable {Uuid : Type} {uuid : UuidCrate Uuid}

/-- INTERNAL: an id whose first three fields are palindromes. -/
theorem flipFields_eq_iff {bytes : Bytes} (h : bytes.length = 16) :
    flipFields bytes = bytes ↔ PalindromicFields bytes := by
  unfold PalindromicFields
  obtain ⟨b0, b1, b2, b3, b4, b5, b6, b7, rest, rfl⟩ :
      ∃ b0 b1 b2 b3 b4 b5 b6 b7 rest, bytes = b0 :: b1 :: b2 :: b3 :: b4 :: b5 :: b6 :: b7 :: rest := by
    match bytes, h with
    | b0 :: b1 :: b2 :: b3 :: b4 :: b5 :: b6 :: b7 :: rest, _ =>
      exact ⟨b0, b1, b2, b3, b4, b5, b6, b7, rest, rfl⟩
  simp only [flipFields, List.take_succ_cons, List.take_zero, List.drop_succ_cons, List.drop_zero,
    List.reverse_cons, List.reverse_nil, List.nil_append, List.cons_append,
    List.cons.injEq, List.getElem?_cons_zero, List.getElem?_cons_succ, Option.some.injEq,
    and_true]
  constructor
  · rintro ⟨h03, h12, -, -, h45, -, h67, -⟩
    exact ⟨h03.symm, h12.symm, h45.symm, h67.symm⟩
  · rintro ⟨rfl, rfl, rfl, rfl⟩
    simp

/-- INTERNAL: a type is read back from its number. -/
theorem parseRequestType_toByte (t : RequestType) : parseRequestType t.toByte = some t := by
  cases t <;> rfl

/-- INTERNAL: bytes that were read were there. -/
theorem readExact_inv {n : ℕ} {stream rest bytes : Bytes}
    (hrun : (readExact n : Recv Uuid Bytes).run stream = .ok bytes rest) :
    n ≤ stream.length ∧ rest = stream.drop n := by
  by_cases h : n ≤ stream.length
  · rw [readExact_ok h] at hrun
    cases hrun
    exact ⟨h, rfl⟩
  · rw [readExact_end h] at hrun
    cases hrun

/-- INTERNAL: parsing does not read. -/
theorem run_liftTcp_inv {α : Type} {x : TcpExec Uuid α} {stream rest : Bytes} {a : α}
    (hrun : (liftTcp x).run stream = .ok a rest) : rest = stream := by
  cases x with
  | ok b =>
    cases hrun
    rfl
  | error e => cases hrun

/-- INTERNAL: reading a request reads its headers and the payload that its length field names.
SOURCE: protocol.rs:173-185 -/
theorem recv_consumes {headerLen : ℕ} {stream rest : Bytes} {r : TcpRequest Uuid}
    (hrun : (recvTcpRequest uuid headerLen).run stream = .ok r rest) :
    stream.length =
      headerLen + 4 + beValue ((stream.drop headerLen).take 4) + rest.length := by
  unfold recvTcpRequest recvHeaders recvPayload at hrun
  obtain ⟨_, _, hheaders, hrun⟩ := run_bind_eq_ok hrun
  obtain ⟨hlen, rfl⟩ := readExact_inv hheaders
  obtain ⟨_, _, hparse, hrun⟩ := run_bind_eq_ok hrun
  obtain rfl := run_liftTcp_inv hparse
  obtain ⟨payloadLen, _, hnumber, hrun⟩ := run_bind_eq_ok hrun
  have hfour : 4 ≤ (stream.drop headerLen).length := by
    by_contra hshort
    rw [readU32_end hshort] at hnumber
    cases hnumber
  rw [readU32_ok hfour] at hnumber
  cases hnumber
  obtain ⟨_, _, hpayload, hrun⟩ := run_bind_eq_ok hrun
  obtain ⟨hinside, rfl⟩ := readExact_inv hpayload
  obtain ⟨_, _, hparse, hrun⟩ := run_bind_eq_ok hrun
  obtain rfl := run_liftTcp_inv hparse
  cases hrun
  simp only [List.length_drop] at hfour hinside ⊢
  omega

/-! ## Requests as frames -/

/-- What the encoder is given: version 0, lengths that fit, and a value exactly for a put. -/
structure Encodable (r : TcpRequest Uuid) : Prop where
  version : r.headers.protocolVersion = 0
  key_lt : (asBytes r.payload.key).length < 2 ^ 31
  value_lt : ∀ value, r.payload.value = some value → (asBytes value).length < 2 ^ 31
  value_iff : r.payload.value.isSome ↔ r.headers.requestType = .put

/-- INTERNAL: the payload is as long as it says. -/
theorem payload_toBytes_length (p : Payload) : p.toBytes.length = p.len := by
  unfold Payload.toBytes Payload.len
  cases p.value <;> simp
  omega

/-- INTERNAL: an id has 16 bytes in the other order as well. -/
theorem flipFields_length (huuid : uuid.Documented) (id : Uuid) :
    (flipFields (uuid.asBytes id)).length = 16 := by
  simp [flipFields, huuid.asBytes_length id]

/-- INTERNAL: the headers of a request. -/
theorem headers_toBytes_length (huuid : uuid.Documented) (h : TcpHeaders Uuid) :
    (h.toBytes uuid).length = 20 := by
  have hid := huuid.asBytes_length h.correlationId
  simp only [TcpHeaders.toBytes, huuid.toBytesLe_eq, List.length_append, beBytes_length]
  simp [flipFields, hid]

/-- INTERNAL: the encoding of a request is a frame with the bytes of the id in the other order. -/
theorem exists_frame (huuid : uuid.Documented) {r : TcpRequest Uuid} (h : Encodable r)
    (hlen : r.payload.len < 2 ^ 32) :
    ∃ f : Frame, f.Known ∧ f.bytes = r.toBytes uuid ∧
      ∃ op, f.meaning uuid = .ok op ∧ f.request uuid op =
        ⟨⟨r.headers.requestType, uuid.fromBytes (flipFields (uuid.asBytes r.headers.correlationId)),
          r.headers.protocolVersion, r.headers.flags⟩, r.payload⟩ := by
  obtain ⟨⟨t, id, version, flags⟩, key, value⟩ := r
  obtain ⟨hversion, -, -, hvalue⟩ := h
  dsimp only at hversion hvalue hlen ⊢
  have hid := flipFields_length huuid id
  have hpayload : 4 + (asBytes key).length + ((value.map asBytes).elim 0 fun v => 4 + v.length) +
      ([] : Bytes).length < 2 ^ 32 := by
    unfold Payload.len at hlen
    cases value <;> simp at hlen ⊢ <;> omega
  let f : Frame := ⟨flipFields (uuid.asBytes id), version, t.toByte, flags, [], asBytes key,
    value.map asBytes, [], hid, by simp, hpayload, fun _ _ => rfl⟩
  have hheaders : f.headers = MAGIC_BYTES ++ TcpHeaders.toBytes uuid ⟨t, id, version, flags⟩ := by
    simp [f, Frame.headers, TcpHeaders.toBytes, huuid.toBytesLe_eq]
  have hbytes : f.payload = Payload.toBytes ⟨key, value⟩ := by
    cases value <;> simp [f, Frame.payload, Frame.valueBytes, Payload.toBytes]
  refine ⟨f, ⟨hversion, ?_⟩, ?_, ?_⟩
  · exact parseRequestType_isSome.mp (by rw [parseRequestType_toByte]; rfl)
  · have hlen := headers_length f
    rw [show f.options.length = 0 from rfl] at hlen
    rw [Frame.bytes, Frame.body, hlen, hheaders, hbytes, payload_toBytes_length]
    simp [TcpRequest.toBytes, TcpHeaders.len]
  · have htype : parseRequestType f.requestType = some t := parseRequestType_toByte t
    have hkey : fromUtf8 f.key = some key := fromUtf8_asBytes key
    unfold Frame.meaning Frame.operation
    rw [if_pos hversion, htype]
    dsimp only
    rw [hkey]
    subst hversion
    cases t with
    | get =>
      cases value with
      | none => exact ⟨.get key, if_pos rfl, rfl⟩
      | some value => exact absurd (hvalue.mp rfl) (by decide)
    | delete =>
      cases value with
      | none => exact ⟨.delete key, if_pos rfl, rfl⟩
      | some value => exact absurd (hvalue.mp rfl) (by decide)
    | put =>
      cases value with
      | none => exact absurd (hvalue.mpr rfl) (by decide)
      | some value =>
        have hutf8 : fromUtf8 (asBytes value) = some value := fromUtf8_asBytes value
        refine ⟨.put ⟨key, value⟩, ?_, rfl⟩
        dsimp only [f, Option.map_some]
        rw [hutf8]

/-- What the server reads from the encoding of a request is this request exactly when the first
three fields of its id are palindromes and the length of the payload is below 2^32.
SOURCE: protocol.rs:85-218 -/
theorem decode_encode_iff (huuid : uuid.Documented) {r : TcpRequest Uuid} (h : Encodable r) :
    (readU32 >>= recvTcpRequest uuid).run (r.toBytes uuid) = .ok r [] ↔
      PalindromicFields (uuid.asBytes r.headers.correlationId) ∧ r.payload.len < 2 ^ 32 := by
  have hflip := flipFields_eq_iff (huuid.asBytes_length r.headers.correlationId)
  rw [← hflip]
  by_cases hlen : r.payload.len < 2 ^ 32
  · obtain ⟨f, hknown, hbytes, op, hmeaning, hrequest⟩ := exists_frame huuid h hlen
    have hread := recv_known uuid hknown []
    rw [hmeaning] at hread
    dsimp only at hread
    rw [hrequest] at hread
    have hnumber : (readU32 : Recv Uuid ℕ).run (f.bytes ++ []) = _ := readU32_frame f []
    rw [List.append_nil] at hnumber
    rw [← hbytes, run_bind_ok hnumber, hread]
    constructor
    · intro hsame
      injection hsame with hr
      have hid := congrArg (fun r => uuid.asBytes r.headers.correlationId) hr
      dsimp only at hid
      rw [huuid.asBytes_fromBytes _ (flipFields_length huuid _)] at hid
      exact ⟨hid, hlen⟩
    · rintro ⟨hid, -⟩
      rw [hid, huuid.fromBytes_asBytes]
  · refine ⟨fun hrun => ?_, fun hcondition => absurd hcondition.2 hlen⟩
    exfalso
    have hheaders := headers_toBytes_length huuid r.headers
    have hpayload := payload_toBytes_length r.payload
    have hstream : r.toBytes uuid = beBytes 4 24 ++ ((MAGIC_BYTES ++ r.headers.toBytes uuid) ++
        (beBytes 4 r.payload.len ++ r.payload.toBytes)) := by
      simp only [TcpRequest.toBytes, TcpHeaders.len, List.append_assoc]
    have hmagic : (MAGIC_BYTES ++ r.headers.toBytes uuid).length = 24 := by
      rw [List.length_append, hheaders]
      rfl
    have hnumber : (readU32 : Recv Uuid ℕ).run (r.toBytes uuid) = .ok 24
        ((MAGIC_BYTES ++ r.headers.toBytes uuid) ++
          (beBytes 4 r.payload.len ++ r.payload.toBytes)) := by
      rw [readU32_ok (by rw [hstream]; simp), hstream, List.take_left' (beBytes_length ..),
        List.drop_left' (beBytes_length ..), beValue_beBytes (by norm_num)]
    rw [run_bind_ok hnumber] at hrun
    have hconsumed := recv_consumes hrun
    rw [List.drop_left' hmagic, List.take_left' (beBytes_length ..), beValue_beBytes_mod,
      List.length_append, hmagic, List.length_append, beBytes_length, hpayload,
      List.length_nil] at hconsumed
    have hmod : r.payload.len % 256 ^ 4 < 2 ^ 32 := Nat.mod_lt _ (by norm_num)
    omega

end

/-- A get of the key `k` with this id. -/
def getK (id : PlainId) : TcpRequest PlainId := ⟨⟨.get, id, 0, 0⟩, ⟨"k", none⟩⟩

/-- INTERNAL: it can be encoded. -/
theorem getK_encodable (id : PlainId) : Encodable (getK id) where
  version := rfl
  key_lt := by
    show (asBytes "k").length < 2 ^ 31
    decide
  value_lt := by rintro _ ⟨⟩
  value_iff := by simp [getK]

def lastBytes : PlainId := ⟨List.replicate 14 0 ++ [4, 0], rfl⟩

def firstByte : PlainId := ⟨1 :: List.replicate 15 0, rfl⟩

/-- An id of which only the last bytes are used, as in the tests. -/
theorem decode_encode_iff_last :
    (readU32 >>= recvTcpRequest plainIds).run ((getK lastBytes).toBytes plainIds) =
        .ok (getK lastBytes) [] ↔
      PalindromicFields (plainIds.asBytes (getK lastBytes).headers.correlationId) ∧
        (getK lastBytes).payload.len < 2 ^ 32 :=
  decode_encode_iff plainIds_documented (getK_encodable _)

/-- An id whose first byte is used comes back as another one. -/
theorem decode_encode_first : Encodable (getK firstByte) ∧
    (readU32 >>= recvTcpRequest plainIds).run ((getK firstByte).toBytes plainIds) ≠
      .ok (getK firstByte) [] := by
  refine ⟨getK_encodable _, ?_⟩
  have hother : (readU32 >>= recvTcpRequest plainIds).run
      ((getK firstByte).toBytes plainIds) =
        .ok (getK ⟨[0, 0, 0, 1] ++ List.replicate 12 0, rfl⟩) [] := rfl
  rw [hother]
  intro hsame
  injection hsame with hr
  have hid := congrArg (fun r => r.headers.correlationId.val.head?) hr
  cases hid

end Rkvs.Analysis

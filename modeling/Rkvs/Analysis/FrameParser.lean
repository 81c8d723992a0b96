import Rkvs.Analysis.RequestParser

/-!
# Parsing frames

The parser reads a frame of a known version and type to its end, and finds the operation it asks
for or the reason to reject it. Of any other frame it reads the headers only.
-/

set_option autoImplicit false

namespace Rkvs.Analysis

open Rkvs.Library Rkvs.Model Rkvs.Interface

section
variable {Uuid : Type} (uuid : UuidCrate Uuid)

/-! ## The parts of a frame -/

theorem headers_length (f : Frame) : f.headers.length = 24 + f.options.length := by
  simp only [Frame.headers, List.length_append, f.id_length, beBytes_length]
  simp [MAGIC_BYTES]

theorem valueBytes_length (f : Frame) :
    f.valueBytes.length = f.value.elim 0 fun value => 4 + value.length := by
  unfold Frame.valueBytes
  cases f.value <;> simp

theorem payload_length (f : Frame) :
    f.payload.length = 4 + f.key.length + f.valueBytes.length + f.extra.length := by
  simp only [Frame.payload, List.length_append, beBytes_length]

theorem payload_lt (f : Frame) : f.payload.length < 2 ^ 32 := by
  rw [payload_length, valueBytes_length]
  exact f.payload_length

/-- INTERNAL: the headers of a frame are long enough. -/
theorem headers_inRange (f : Frame) : HeadersInRange f.headers := by
  have hlen := headers_length f
  exact ⟨by omega, fun _ => ⟨by omega, fun _ => ⟨by omega, fun _ _ _ => by omega⟩⟩⟩

/-- INTERNAL: what the parser finds in the headers. -/
theorem readHeaders_frame (f : Frame) :
    readHeaders uuid f.headers =
      if f.version = 0 then
        match parseRequestType f.requestType with
        | none => .error (.parse (.invalidRequestType (uuid.fromBytes f.id)))
        | some requestType => .ok ⟨requestType, uuid.fromBytes f.id, 0, f.flags⟩
      else .error (.parse (.unsupportedVersion (uuid.fromBytes f.id))) := by
  have hmagic : f.headers.take 4 = MAGIC_BYTES := by
    simp only [Frame.headers, List.append_assoc]
    exact List.take_left' rfl
  have hrest : f.headers.drop 4 = f.id ++ ([f.version, f.requestType] ++
      (beBytes 2 f.flags.toNat ++ f.options)) := by
    simp only [Frame.headers, List.append_assoc]
    exact List.drop_left' rfl
  have hid : (f.headers.drop 4).take 16 = f.id := by
    rw [hrest, List.take_left' f.id_length]
  have hfields : f.headers.drop 20 = [f.version, f.requestType] ++
      (beBytes 2 f.flags.toNat ++ f.options) := by
    have hdrop : f.headers.drop 20 = (f.headers.drop 4).drop 16 := by rw [List.drop_drop]
    rw [hdrop, hrest, List.drop_left' f.id_length]
  have hversion : f.headers[20]? = some f.version := by
    have hget := congrArg (·[0]?) hfields
    simpa [List.getElem?_drop] using hget
  have htype : f.headers[21]? = some f.requestType := by
    have hget := congrArg (·[1]?) hfields
    simpa [List.getElem?_drop] using hget
  have hflags : (f.headers.drop 22).take 2 = beBytes 2 f.flags.toNat := by
    have hdrop : f.headers.drop 22 = (f.headers.drop 20).drop 2 := by rw [List.drop_drop]
    rw [hdrop, hfields]
    exact List.take_left' (beBytes_length ..)
  have hvalue : UInt16.ofNat (beValue (beBytes 2 f.flags.toNat)) = f.flags := by
    rw [beValue_beBytes (by have := f.flags.toNat_lt; omega), UInt16.ofNat_toNat]
  unfold readHeaders
  rw [if_neg (not_not.mpr hmagic), hid, hversion, htype, hflags, hvalue, Option.bind_some]
  by_cases hzero : f.version = 0
  · have hsupported : ¬(some f.version ≠ some 0) := not_not.mpr (congrArg some hzero)
    refine Eq.trans (if_neg hsupported) (Eq.trans ?_ (if_pos hzero).symm)
    cases parseRequestType f.requestType <;> rfl
  · rw [if_neg hzero, if_pos (by simpa using hzero)]

/-- INTERNAL: the number of puts. -/
theorem parseRequestType_put {n : UInt8} (h : parseRequestType n = some .put) : n = 2 := by
  unfold parseRequestType at h
  split_ifs at h with h0 h1 h2
  · cases h
  · cases h
  · exact h2

/-- What the parser makes of the payload of a frame.
SOURCE: protocol.rs:109-148 -/
theorem parsePayload_frame (f : Frame) {requestType : RequestType}
    (htype : parseRequestType f.requestType = some requestType) :
    parsePayload f.payload requestType (uuid.fromBytes f.id) =
      match f.operation uuid requestType with
      | .ok op => .ok (f.request uuid op).payload
      | .error e => .error (.error (.parse e)) := by
  have hlen := payload_length f
  have hlt := payload_lt f
  have hkeyLen : beValue (beBytes 4 f.key.length) = f.key.length := beValue_beBytes (by omega)
  have hlast : f.payload.length - 4 = f.key.length + (f.valueBytes ++ f.extra).length := by
    rw [List.length_append]
    omega
  have hhead : slice f.payload 0 4 = .ok (beBytes 4 f.key.length) :=
    slice_middle [] _ (f.key ++ f.valueBytes ++ f.extra) (by simp [Frame.payload]) rfl (by simp)
  have hkey : slice f.payload 4 (f.key.length + 4) = .ok f.key :=
    slice_middle (beBytes 4 f.key.length) _ (f.valueBytes ++ f.extra) (by simp [Frame.payload])
      (by simp) (by simp [Nat.add_comm])
  unfold parsePayload Frame.operation
  rw [hhead, checked_ok, exec_ok_bind, hkeyLen]
  dsimp only
  rw [hkey, checked_ok, exec_ok_bind, checkedSub_ok (by omega), checked_ok]
  cases fromUtf8 f.key with
  | none => rfl
  | some key =>
    cases requestType with
    | get =>
      simp only [exec_ok_bind, hlast, Nat.lt_add_right_iff_pos, List.length_pos_iff]
      by_cases hnil : f.valueBytes ++ f.extra = []
      · rw [if_neg (not_not.mpr hnil), if_pos hnil]
        rfl
      · rw [if_pos hnil, if_neg hnil]
    | delete =>
      simp only [exec_ok_bind, hlast, Nat.lt_add_right_iff_pos, List.length_pos_iff]
      by_cases hnil : f.valueBytes ++ f.extra = []
      · rw [if_neg (not_not.mpr hnil), if_pos hnil]
        rfl
      · rw [if_pos hnil, if_neg hnil]
    | put =>
      simp only [exec_ok_bind, hlast]
      cases hvalue : f.value with
      | none =>
        have hnil : f.valueBytes ++ f.extra = [] := by
          rw [Frame.valueBytes, hvalue, f.missing_value (parseRequestType_put htype) hvalue]
          rfl
        rw [hnil, if_pos (by simp)]
      | some value =>
        have hbytes : f.valueBytes = beBytes 4 value.length ++ value := by
          rw [Frame.valueBytes, hvalue]
        have hvalueLen : beValue (beBytes 4 value.length) = value.length := by
          rw [hbytes, List.length_append, beBytes_length] at hlen
          exact beValue_beBytes (by omega)
        have hlength : slice f.payload (f.key.length + 4) (f.key.length + 8) =
            .ok (beBytes 4 value.length) :=
          slice_middle (beBytes 4 f.key.length ++ f.key) _ (value ++ f.extra)
            (by simp [Frame.payload, hbytes]) (by simp [Nat.add_comm]) (by simp; omega)
        have hslice : slice f.payload (f.key.length + 8) (f.key.length + 8 + value.length) =
            .ok value :=
          slice_middle (beBytes 4 f.key.length ++ f.key ++ beBytes 4 value.length) _ f.extra
            (by simp [Frame.payload, hbytes]) (by simp; omega) (by simp; omega)
        rw [if_neg (by rw [hbytes]; simp), hlength, checked_ok, exec_ok_bind, hvalueLen, hslice,
          checked_ok, exec_ok_bind]
        dsimp only
        cases fromUtf8 value <;> rfl

/-- INTERNAL: the headers of the request of a frame. -/
theorem request_headers (f : Frame) {requestType : RequestType} {op : Operation}
    (hop : f.operation uuid requestType = .ok op) :
    (f.request uuid op).headers = ⟨requestType, uuid.fromBytes f.id, 0, f.flags⟩ := by
  unfold Frame.operation at hop
  split at hop
  · cases hop
  · split at hop
    · split at hop
      · cases hop
      · split at hop
        · cases hop
        · cases hop
          rfl
    · split at hop
      · cases hop
        rfl
      · cases hop
    · split at hop
      · cases hop
        rfl
      · cases hop

/-! ## Whole frames -/

/-- INTERNAL: the length of the headers comes first. -/
theorem readU32_frame (f : Frame) (rest : Bytes) :
    (readU32 : Recv Uuid ℕ).run (f.bytes ++ rest) =
      .ok f.headers.length (f.headers ++ f.body ++ rest) := by
  have hlen := headers_length f
  have hlt := f.options_length
  rw [readU32_ok (by simp [Frame.bytes])]
  have htake : (f.bytes ++ rest).take 4 = beBytes 4 f.headers.length := by
    simp only [Frame.bytes, List.append_assoc]
    exact List.take_left' (beBytes_length ..)
  have hdrop : (f.bytes ++ rest).drop 4 = f.headers ++ f.body ++ rest := by
    simp only [Frame.bytes, List.append_assoc]
    exact List.drop_left' (beBytes_length ..)
  rw [htake, hdrop, beValue_beBytes (by omega)]

/-- INTERNAL: exactly the bytes asked for. -/
theorem readExact_append (bytes rest : Bytes) :
    (readExact bytes.length : Recv Uuid Bytes).run (bytes ++ rest) = .ok bytes rest := by
  rw [readExact_ok (by simp), List.take_left, List.drop_left]

/-- A frame of a known version and type is read to its end.
SOURCE: protocol.rs:173-185 -/
theorem recv_known {f : Frame} (hknown : f.Known) (rest : Bytes) :
    (recvTcpRequest uuid f.headers.length).run (f.headers ++ f.body ++ rest) =
      match f.meaning uuid with
      | .ok op => .ok (f.request uuid op) rest
      | .error e => .error (.error (.parse e)) rest := by
  obtain ⟨hversion, hsmall⟩ := hknown
  obtain ⟨requestType, htype⟩ := Option.isSome_iff_exists.mp (parseRequestType_isSome.mpr hsmall)
  have hlt := payload_lt f
  unfold recvTcpRequest recvHeaders recvPayload Frame.meaning
  rw [List.append_assoc, run_bind_ok (readExact_append _ _),
    parseHeaders_eq uuid (headers_inRange f), readHeaders_frame, if_pos hversion,
    if_pos hversion, htype]
  dsimp only
  rw [Except.mapError, run_bind_ok (run_liftTcp_ok _ _)]
  have hlen : (readU32 : Recv Uuid ℕ).run (f.body ++ rest) =
      .ok f.payload.length (f.payload ++ rest) := by
    rw [readU32_ok (by simp [Frame.body]), Frame.body, List.append_assoc,
      List.take_left' (beBytes_length ..), List.drop_left' (beBytes_length ..),
      beValue_beBytes (by omega)]
  rw [run_bind_ok hlen, run_bind_ok (readExact_append _ _)]
  dsimp only
  rw [parsePayload_frame uuid f htype]
  cases hmeaning : f.operation uuid requestType with
  | ok op =>
    rw [run_bind_ok (run_liftTcp_ok _ _), ← request_headers uuid f hmeaning]
    rfl
  | error e => exact run_bind_error (run_liftTcp_error _ _)

/-- Of any other frame the body is left unread.
SOURCE: protocol.rs:173-185 -/
theorem recv_unknown {f : Frame} (hknown : ¬f.Known) (rest : Bytes) :
    ∃ e, f.meaning uuid = .error e ∧
      (recvTcpRequest uuid f.headers.length).run (f.headers ++ f.body ++ rest) =
        .error (.error (.parse e)) (f.body ++ rest) := by
  unfold recvTcpRequest recvHeaders Frame.meaning
  rw [List.append_assoc, run_bind_ok (readExact_append _ _),
    parseHeaders_eq uuid (headers_inRange f), readHeaders_frame]
  by_cases hversion : f.version = 0
  · have hnone : parseRequestType f.requestType = none := by
      rw [← Option.not_isSome_iff_eq_none, parseRequestType_isSome]
      exact fun hsmall => hknown ⟨hversion, hsmall⟩
    rw [if_pos hversion, if_pos hversion, hnone]
    exact ⟨_, rfl, run_bind_error (run_liftTcp_error _ _)⟩
  · rw [if_neg hversion, if_neg hversion]
    exact ⟨_, rfl, run_bind_error (run_liftTcp_error _ _)⟩

end

end Rkvs.Analysis

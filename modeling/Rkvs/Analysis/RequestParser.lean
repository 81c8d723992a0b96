import Rkvs.Interface.RequestFrames

/-!
# The request parser

The parser of requests panics exactly when a length field points behind the bytes that are
there. Everything else that a client can send is a request, a rejected request, or the end of
the connection.
-/

set_option autoImplicit false

namespace Rkvs.Analysis

open Rkvs.Library Rkvs.Model Rkvs.Interface

section
variable {Uuid : Type}

/-- INTERNAL: a step that returns. -/
@[simp] theorem checked_ok {α : Type} (a : α) :
    (checked (.ok a) : TcpExec Uuid α) = .ok a := rfl

/-- INTERNAL: a step that panics. -/
@[simp] theorem checked_error {α : Type} (e : Fault) :
    (checked (.error e : Exec α) : TcpExec Uuid α) = .error .panic := rfl

/-- INTERNAL: a slice that reaches over the end. -/
theorem slice_panic {α : Type} {l : List α} {start stop : ℕ} (h : l.length < stop) :
    slice l start stop = .error .panic := if_neg fun h' => absurd h'.2 (Nat.not_le.mpr h)

/-- INTERNAL: an index within the bounds. -/
theorem index_ok {α : Type} {l : List α} {i : ℕ} {a : α} (h : l[i]? = some a) :
    index l i = .ok a := by
  rw [index, h, unwrap_some]

/-- INTERNAL: an index out of bounds. -/
theorem index_panic {α : Type} {l : List α} {i : ℕ} (h : l.length ≤ i) :
    index l i = .error .panic := by
  rw [index, List.getElem?_eq_none h, unwrap_none]

/-- The parser of a payload panics exactly when a length field points behind its end.
SOURCE: protocol.rs:109-148 -/
theorem parsePayload_panic_iff (requestType : RequestType) (id : Uuid) (buf : Bytes) :
    parsePayload buf requestType id = .error .panic ↔ ¬PayloadInRange requestType buf := by
  unfold parsePayload PayloadInRange
  by_cases hlen : 4 ≤ buf.length
  swap
  · rw [slice_panic (by omega), checked_error, exec_error_bind]
    simp only [true_iff]
    intro h
    omega
  rw [slice_ok (Nat.zero_le _) hlen, checked_ok, exec_ok_bind, List.drop_zero, Nat.sub_zero]
  generalize beValue (buf.take 4) = keyLen
  dsimp only
  by_cases hkey : 4 + keyLen ≤ buf.length
  swap
  · rw [slice_panic (by omega), checked_error, exec_error_bind]
    simp [hkey]
  rw [slice_ok (by omega) (by omega), checked_ok, exec_ok_bind, Nat.add_sub_cancel,
    checkedSub_ok hlen, checked_ok]
  cases hutf8 : fromUtf8 ((buf.drop 4).take keyLen) with
  | none => simp [hkey]
  | some key =>
    cases requestType with
    | get => simp only [exec_ok_bind]; split <;> simp [hkey]
    | delete => simp only [exec_ok_bind]; split <;> simp [hkey]
    | put =>
      simp only [exec_ok_bind]
      split
      next hall =>
        simp only [reduceCtorEq, Except.error.injEq, false_iff, not_not]
        exact ⟨hkey, fun _ _ hmore => by omega⟩
      next hmore =>
        by_cases hvalueLen : 8 + keyLen ≤ buf.length
        swap
        · rw [slice_panic (by omega), checked_error, exec_error_bind]
          simp only [true_iff]
          intro h
          exact hvalueLen (h.2 trivial rfl (by omega)).1
        rw [slice_ok (by omega) (by omega), checked_ok, exec_ok_bind, Nat.add_comm keyLen 4,
          show keyLen + 8 - (4 + keyLen) = 4 by omega]
        generalize beValue ((buf.drop (4 + keyLen)).take 4) = valueLen
        by_cases hvalue : 8 + keyLen + valueLen ≤ buf.length
        · rw [slice_ok (by omega) (by omega), checked_ok, exec_ok_bind]
          have hinside : 4 + keyLen ≤ buf.length ∧ (RequestType.put = .put →
              (some key).isSome → 4 + keyLen < buf.length →
              8 + keyLen ≤ buf.length ∧ 8 + keyLen + valueLen ≤ buf.length) :=
            ⟨hkey, fun _ _ _ => ⟨hvalueLen, hvalue⟩⟩
          split
          · simpa using hinside
          · simpa using hinside
        · rw [slice_panic (by omega), checked_error, exec_error_bind]
          simp only [true_iff]
          intro h
          exact hvalue (h.2 trivial rfl (by omega)).2

/-- INTERNAL: the types of requests are the numbers up to 2. -/
theorem parseRequestType_isSome {n : UInt8} : (parseRequestType n).isSome ↔ n ≤ 2 := by
  unfold parseRequestType
  split_ifs with h0 h1 h2
  · simp [h0]
  · simp [h1]
  · simp [h2]
  · simp only [Option.isSome_none, Bool.false_eq_true, false_iff]
    intro hle
    have hnat : n.toNat ≤ 2 := hle
    have hne : n.toNat ≠ 0 ∧ n.toNat ≠ 1 ∧ n.toNat ≠ 2 :=
      ⟨fun h => h0 (UInt8.toNat.inj h), fun h => h1 (UInt8.toNat.inj h),
        fun h => h2 (UInt8.toNat.inj h)⟩
    omega

/-- What the parser makes of headers that are long enough. -/
def readHeaders (uuid : UuidCrate Uuid) (buf : Bytes) : Except (TcpError Uuid) (TcpHeaders Uuid) :=
  let id := uuid.fromBytes ((buf.drop 4).take 16)
  if buf.take 4 ≠ MAGIC_BYTES then .error (.connection .wrongMagicBytes)
  else if buf[20]? ≠ some 0 then .error (.parse (.unsupportedVersion id))
  else match buf[21]?.bind parseRequestType with
    | none => .error (.parse (.invalidRequestType id))
    | some requestType =>
      .ok ⟨requestType, id, 0, UInt16.ofNat (beValue ((buf.drop 22).take 2))⟩

/-- INTERNAL: headers that are long enough are parsed without a panic. -/
theorem parseHeaders_eq (uuid : UuidCrate Uuid) {buf : Bytes} (h : HeadersInRange buf) :
    parseHeaders uuid buf = (readHeaders uuid buf).mapError .error := by
  obtain ⟨hlen, hmore⟩ := h
  unfold parseHeaders readHeaders
  rw [slice_ok (Nat.zero_le _) hlen, checked_ok, exec_ok_bind, List.drop_zero, Nat.sub_zero]
  by_cases hmagic : buf.take 4 = MAGIC_BYTES
  swap
  · rw [if_pos (by simp [verifyMagicBytes, hmagic]), if_pos hmagic]
    rfl
  obtain ⟨hlen, hmore⟩ := hmore hmagic
  rw [if_neg (by simp [verifyMagicBytes, hmagic]), if_neg (not_not.mpr hmagic),
    slice_ok (by omega) (by omega), checked_ok, exec_ok_bind,
    index_ok (List.getElem?_eq_getElem (show 20 < buf.length by omega)), checked_ok, exec_ok_bind]
  have hbyte := List.getElem?_eq_getElem (show 20 < buf.length by omega)
  by_cases hversion : buf[20]? = some 0
  swap
  · have hne : buf[20] ≠ 0 := fun h => hversion (by rw [hbyte, h])
    have hgt : buf[20] > PROTOCOL_VERSION := by
      show (0 : ℕ) < buf[20].toNat
      have hpos : buf[20].toNat ≠ 0 := fun h => hne (UInt8.toNat.inj h)
      omega
    rw [if_pos hgt, if_pos hversion]
    rfl
  have hzero : buf[20] = 0 := Option.some.inj (hbyte.symm.trans hversion)
  obtain ⟨hlen, hmore⟩ := hmore hversion
  have htype := List.getElem?_eq_getElem (show 21 < buf.length by omega)
  rw [if_neg (by rw [hzero]; decide), if_neg (not_not.mpr hversion), index_ok htype, checked_ok,
    exec_ok_bind, htype, Option.bind_some]
  cases hn : parseRequestType buf[21] with
  | none => rfl
  | some requestType =>
    have hsmall : buf[21] ≤ 2 := parseRequestType_isSome.mp (by rw [hn]; rfl)
    have hflags := hmore _ htype hsmall
    rw [slice_ok (by omega) hflags, hzero]
    rfl

/-- The parser of headers panics exactly when they are too short for what it looks at.
SOURCE: protocol.rs:85-107 -/
theorem parseHeaders_panic_iff (uuid : UuidCrate Uuid) (buf : Bytes) :
    parseHeaders uuid buf = .error .panic ↔ ¬HeadersInRange buf := by
  constructor
  · intro hpanic hrange
    rw [parseHeaders_eq uuid hrange] at hpanic
    cases hread : readHeaders uuid buf with
    | error e =>
      rw [hread] at hpanic
      cases hpanic
    | ok headers =>
      rw [hread] at hpanic
      cases hpanic
  · intro hrange
    unfold parseHeaders
    by_cases hlen : 4 ≤ buf.length
    swap
    · rw [slice_panic (by omega), checked_error, exec_error_bind]
    rw [slice_ok (Nat.zero_le _) hlen, checked_ok, exec_ok_bind, List.drop_zero, Nat.sub_zero]
    by_cases hmagic : buf.take 4 = MAGIC_BYTES
    swap
    · exact absurd ⟨hlen, fun h => absurd h hmagic⟩ hrange
    rw [if_neg (by simp [verifyMagicBytes, hmagic])]
    by_cases hid : 20 ≤ buf.length
    swap
    · rw [slice_panic (by omega), checked_error, exec_error_bind]
    rw [slice_ok (by omega) hid, checked_ok, exec_ok_bind]
    by_cases hversion : 20 < buf.length
    swap
    · rw [index_panic (by omega), checked_error, exec_error_bind]
    have hbyte := List.getElem?_eq_getElem hversion
    rw [index_ok hbyte, checked_ok, exec_ok_bind]
    have hzero : buf[20] = 0 := by
      by_contra hne
      refine hrange ⟨hlen, fun _ => ⟨hversion, fun h => ?_⟩⟩
      exact absurd (Option.some.inj (hbyte.symm.trans h)) hne
    rw [if_neg (by rw [hzero]; decide)]
    by_cases htype : 21 < buf.length
    swap
    · rw [index_panic (by omega), checked_error, exec_error_bind]
    rw [index_ok (List.getElem?_eq_getElem htype), checked_ok, exec_ok_bind]
    -- only the flags can be missing, and only for a known type
    have hmissing : buf[21] ≤ 2 ∧ buf.length < 24 := by
      by_contra hnot
      refine hrange ⟨hlen, fun _ => ⟨hversion, fun _ => ⟨htype, fun n hn hsmall => ?_⟩⟩⟩
      obtain rfl := Option.some.inj ((List.getElem?_eq_getElem htype).symm.trans hn)
      by_contra hshort
      exact hnot ⟨hsmall, by omega⟩
    obtain ⟨requestType, hn⟩ := Option.isSome_iff_exists.mp
      (parseRequestType_isSome.mpr hmissing.1)
    rw [hn, slice_panic hmissing.2]
    rfl

/-- INTERNAL: the type of the request, when the headers are accepted. -/
theorem acceptedType_eq (uuid : UuidCrate Uuid) (buf : Bytes) :
    acceptedType buf = (readHeaders uuid buf).toOption.map TcpHeaders.requestType := by
  unfold acceptedType readHeaders
  by_cases hmagic : buf.take 4 = MAGIC_BYTES
  swap
  · rw [if_neg (fun h => hmagic h.1), if_pos hmagic]
    rfl
  by_cases hversion : buf[20]? = some 0
  swap
  · rw [if_neg (fun h => hversion h.2), if_neg (not_not.mpr hmagic), if_pos hversion]
    rfl
  rw [if_pos ⟨hmagic, hversion⟩, if_neg (not_not.mpr hmagic), if_neg (not_not.mpr hversion)]
  cases buf[21]?.bind parseRequestType with
  | none => rfl
  | some requestType => rfl

/-! ## Reading from a stream -/

/-- INTERNAL: there are enough bytes. -/
theorem readExact_ok {n : ℕ} {stream : Bytes} (h : n ≤ stream.length) :
    (readExact n : Recv Uuid Bytes).run stream = .ok (stream.take n) (stream.drop n) := if_pos h

/-- INTERNAL: the stream ends before. -/
theorem readExact_end {n : ℕ} {stream : Bytes} (h : ¬n ≤ stream.length) :
    (readExact n : Recv Uuid Bytes).run stream =
      .error (.error (.connection .ioError)) [] := if_neg h

/-- INTERNAL: there are enough bytes for a number. -/
theorem readU32_ok {stream : Bytes} (h : 4 ≤ stream.length) :
    (readU32 : Recv Uuid ℕ).run stream = .ok (beValue (stream.take 4)) (stream.drop 4) := by
  unfold readU32
  rw [map_eq_pure_bind, run_bind_ok (readExact_ok h)]
  rfl

/-- INTERNAL: the stream ends before a number. -/
theorem readU32_end {stream : Bytes} (h : ¬4 ≤ stream.length) :
    (readU32 : Recv Uuid ℕ).run stream = .error (.error (.connection .ioError)) [] := by
  unfold readU32
  rw [map_eq_pure_bind, run_bind_error (readExact_end h)]

/-- INTERNAL: a result leaves the stream as it is. -/
theorem run_liftTcp_ok {α : Type} (a : α) (stream : Bytes) :
    (liftTcp (.ok a) : Recv Uuid α).run stream = .ok a stream := rfl

/-- INTERNAL: so does an error. -/
theorem run_liftTcp_error {α : Type} (e : TcpFault Uuid) (stream : Bytes) :
    (liftTcp (.error e) : Recv Uuid α).run stream = .error e stream := rfl

/-- Receiving a request does not panic exactly when its length fields agree with its bytes.
SOURCE: protocol.rs:173-185 -/
theorem recvTcpRequest_returns_iff (uuid : UuidCrate Uuid) (headerLen : ℕ) (stream : Bytes) :
    (∀ rest, (recvTcpRequest uuid headerLen).run stream ≠ .error .panic rest) ↔
      RequestInRange headerLen stream := by
  unfold recvTcpRequest recvHeaders recvPayload RequestInRange
  by_cases hlen : headerLen ≤ stream.length
  swap
  · rw [run_bind_error (readExact_end hlen)]
    simp [hlen]
  rw [run_bind_ok (readExact_ok hlen)]
  generalize stream.take headerLen = buf
  generalize stream.drop headerLen = rest
  simp only [hlen, forall_const]
  by_cases hrange : HeadersInRange buf
  swap
  · rw [(parseHeaders_panic_iff uuid buf).mpr hrange, run_bind_error (run_liftTcp_error _ rest)]
    simp [hrange]
  rw [parseHeaders_eq uuid hrange, acceptedType_eq uuid]
  cases readHeaders uuid buf with
  | error e =>
    rw [Except.mapError, run_bind_error (run_liftTcp_error _ rest)]
    simp [hrange, Except.toOption]
  | ok headers =>
    rw [Except.mapError, run_bind_ok (run_liftTcp_ok headers rest)]
    simp only [hrange, true_and, Except.toOption, Option.map_some, Option.some.injEq, forall_eq']
    by_cases hfour : 4 ≤ rest.length
    swap
    · rw [run_bind_error (readU32_end hfour)]
      simp only [ne_eq, reduceCtorEq, EStateM.Result.error.injEq, false_and, not_false_eq_true,
        implies_true, true_iff]
      intro h
      omega
    rw [run_bind_ok (readU32_ok hfour)]
    generalize beValue (rest.take 4) = payloadLen
    by_cases hpayload : payloadLen ≤ (rest.drop 4).length
    swap
    · rw [run_bind_error (readExact_end hpayload)]
      rw [List.length_drop] at hpayload
      simp only [ne_eq, reduceCtorEq, EStateM.Result.error.injEq, false_and, not_false_eq_true,
        implies_true, true_iff]
      intro h
      omega
    rw [run_bind_ok (readExact_ok hpayload)]
    rw [List.length_drop] at hpayload
    generalize (rest.drop 4).take payloadLen = payload
    have hwhole : 4 + payloadLen ≤ rest.length := by omega
    have hpanic := parsePayload_panic_iff headers.requestType headers.correlationId payload
    simp only [hwhole, forall_const]
    cases hparse : parsePayload payload headers.requestType headers.correlationId with
    | ok p =>
      rw [run_bind_ok (run_liftTcp_ok p _)]
      have hinside : PayloadInRange headers.requestType payload := by
        rw [hparse] at hpanic
        simpa using hpanic
      exact ⟨fun _ => hinside, by rintro - rest ⟨⟩⟩
    | error fault =>
      rw [run_bind_error (run_liftTcp_error fault _)]
      cases fault with
      | panic =>
        have houtside := hpanic.mp hparse
        simp [houtside]
      | error e =>
        have hinside : PayloadInRange headers.requestType payload := by
          rw [hparse] at hpanic
          simpa using hpanic
        exact ⟨fun _ => hinside, by rintro - rest ⟨⟩⟩

/-- A get whose payload has no bytes. -/
theorem empty_payload_panics :
    ¬∀ (headerLen : ℕ) (stream rest : Bytes),
      (recvTcpRequest plainIds headerLen).run stream ≠ .error .panic rest := by
  intro h
  exact h 24 (MAGIC_BYTES ++ List.replicate 16 0 ++ [0, 1, 0, 0] ++ [0, 0, 0, 0]) [] rfl

end

end Rkvs.Analysis

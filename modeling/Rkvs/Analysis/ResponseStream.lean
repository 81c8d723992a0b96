import Rkvs.Analysis.ConnectionLoop
import Rkvs.Interface.Responses

/-!
# Telling responses apart

Whatever the loop writes is the bytes of responses. From the bytes the id and the code of the first
response can be read, but not where its value ends, so two sequences of responses with the same
bytes are the same only if their framing is.
-/

set_option autoImplicit false

namespace Rkvs.Analysis

open Rkvs.Library Rkvs.Model Rkvs.Interface

section
variable {Uuid σ : Type} {uuid : UuidCrate Uuid} {store : Store σ}

/-! ## What the loop writes -/

/-- INTERNAL: reading writes nothing. -/
theorem onReader_writes {α : Type} {x : Recv Uuid α} {c c' : Connection σ}
    {r : Except (TcpError Uuid) α} (h : (Connection.onReader x).run c = .ok r c') :
    c'.written = c.written ∧ c'.writeEvents = c.writeEvents := by
  change Connection.onReader x c = _ at h
  unfold Connection.onReader at h
  split at h
  · cases h
    exact ⟨rfl, rfl⟩
  · cases h
    exact ⟨rfl, rfl⟩
  · cases h

/-- INTERNAL: nor does a request that the store handles. -/
theorem handleTcpRequest_writes {request : TcpRequest Uuid} {c c' : Connection σ} {r : StoreResult}
    (h : (Connection.handleTcpRequest store request).run c = .ok r c') :
    c'.written = c.written ∧ c'.writeEvents = c.writeEvents := by
  obtain ⟨op, mid, hop, hcall⟩ := run_bind_eq_ok h
  obtain ⟨-, rfl⟩ := run_liftExec_eq_ok hop
  rw [callStorageEngine_eq] at hcall
  cases hcall
  exact ⟨rfl, rfl⟩

/-- INTERNAL: an error is answered by responses.
SOURCE: connection.rs:173-185 -/
theorem handleTcpError_responses {e : TcpError Uuid} {c c' : Connection σ}
    {status : KeepAliveStatus} (hevents : c.writeEvents = [])
    (h : (Connection.handleTcpError uuid e).run c = .ok status c') :
    c'.writeEvents = [] ∧ ∃ rs, (∀ r ∈ rs, Answer r) ∧ c'.written = c.written ++ stream uuid rs := by
  cases e with
  | connection e =>
    cases e <;> cases h <;>
      exact ⟨hevents, [], fun r hr => absurd hr List.not_mem_nil, (List.append_nil _).symm⟩
  | parse e =>
    unfold Connection.handleTcpError Connection.sendTcpErrorResponse at h
    rw [run_bind_ok (writeAll_ok hevents _)] at h
    cases h
    refine ⟨hevents, [.fromTcpParseError e], fun r hr => ?_, ?_⟩
    · rw [List.mem_singleton.mp hr]
      exact .parseError e
    · rw [stream, List.flatMap_singleton]

/-- INTERNAL: a request is answered once at most.
SOURCE: connection.rs:154-171 -/
theorem recvAndHandle_responses {headerLen : ℕ} {c c' : Connection σ} {status : KeepAliveStatus}
    (hevents : c.writeEvents = [])
    (h : (Connection.recvAndHandleTcpRequest uuid store headerLen).run c = .ok status c') :
    c'.writeEvents = [] ∧ ∃ rs, (∀ r ∈ rs, Answer r) ∧ c'.written = c.written ++ stream uuid rs := by
  obtain ⟨received, read, hread, h⟩ := run_bind_eq_ok h
  obtain ⟨hsame, hnone⟩ := onReader_writes hread
  rw [hevents] at hnone
  rw [← hsame]
  cases received with
  | error e => exact handleTcpError_responses hnone h
  | ok request =>
    obtain ⟨result, handled, hhandled, h⟩ := run_bind_eq_ok h
    obtain ⟨hkept, hstill⟩ := handleTcpRequest_writes hhandled
    rw [hnone] at hstill
    rw [← hkept]
    cases result with
    | ok value =>
      have hsent : (Connection.sendResponse uuid value request.headers.correlationId).run handled =
          .ok () { handled with written := handled.written ++
            (TcpResponse.fromValue request.headers.correlationId value).toBytes uuid } :=
        run_bind_ok (writeAll_ok hstill _)
      dsimp only at h
      rw [run_bind_ok hsent] at h
      cases h
      refine ⟨hstill, [.fromValue request.headers.correlationId value], fun r hr => ?_, ?_⟩
      · rw [List.mem_singleton.mp hr]
        exact .value _ _
      · rw [stream, List.flatMap_singleton]
    | error e =>
      unfold Connection.sendInternalErrorResponse at h
      dsimp only at h
      rw [run_bind_ok (writeAll_ok hstill _)] at h
      cases h
      refine ⟨hstill, [.fromInternalError request.headers.correlationId e], fun r hr => ?_, ?_⟩
      · rw [List.mem_singleton.mp hr]
        exact .internalError _ _
      · rw [stream, List.flatMap_singleton]

/-- INTERNAL: one round writes at most one response.
SOURCE: connection.rs:218-234 -/
theorem round_responses {wake : Wake} {c c' : Connection σ} {status : KeepAliveStatus}
    (hevents : c.writeEvents = [])
    (h : (Connection.round uuid store wake).run c = .ok status c') :
    c'.writeEvents = [] ∧ ∃ rs, (∀ r ∈ rs, Answer r) ∧ c'.written = c.written ++ stream uuid rs := by
  have hsilent : c'.written = c.written → c'.writeEvents = c.writeEvents →
      c'.writeEvents = [] ∧ ∃ rs, (∀ r ∈ rs, Answer r) ∧
        c'.written = c.written ++ stream uuid rs := by
    intro hwritten hsame
    rw [hsame, hwritten]
    exact ⟨hevents, [], fun r hr => absurd hr List.not_mem_nil, (List.append_nil _).symm⟩
  by_cases hwake : wake = .ready
  · subst hwake
    obtain ⟨headerLen, read, hlen, h⟩ := run_bind_eq_ok h
    obtain ⟨received, read', hread, hlen⟩ := run_bind_eq_ok hlen
    obtain ⟨hsame, hnone⟩ := onReader_writes hread
    cases received with
    | error e =>
      cases hlen
      cases h
      exact hsilent hsame hnone
    | ok n =>
      cases hlen
      rw [← hsame]
      rw [hevents] at hnone
      exact recvAndHandle_responses hnone h
  · rw [round_close hwake] at h
    cases h
    exact hsilent rfl rfl

/-- INTERNAL: responses before the others of a connection. -/
theorem responses_append {rs rest : List (TcpResponse Uuid)} (hanswers : ∀ r ∈ rs, Answer r)
    (h : Responses uuid rest) : Responses uuid (rs ++ rest) := by
  induction rs with
  | nil => exact h
  | cons r rs ih =>
    apply Responses.cons (hanswers r List.mem_cons_self)
    exact ih fun r' hr' => hanswers r' (List.mem_cons_of_mem _ hr')

/-- INTERNAL: the bytes of two lists of responses. -/
theorem stream_append (rs rest : List (TcpResponse Uuid)) :
    stream uuid (rs ++ rest) = stream uuid rs ++ stream uuid rest := List.flatMap_append

/-- INTERNAL: the rounds of the loop, by induction on the fuel. -/
theorem startLoop_responses {fuel : ℕ} {wakes : List Wake} {c c' : Connection σ}
    (hevents : c.writeEvents = [])
    (h : (Connection.startLoop uuid store fuel wakes).run c = .ok () c') :
    ∃ rs, Responses uuid rs ∧ c'.written = c.written ++ stream uuid rs := by
  induction fuel generalizing wakes c with
  | zero => cases h
  | succ fuel ih =>
    rw [Connection.startLoop] at h
    obtain ⟨status, mid, hround, h⟩ := run_bind_eq_ok h
    obtain ⟨hnone, rs, hanswers, hwritten⟩ := round_responses hevents hround
    cases status with
    | keepAlive =>
      obtain ⟨rest, hrest, hmore⟩ := ih hnone h
      refine ⟨rs ++ rest, responses_append hanswers hrest, ?_⟩
      rw [hmore, hwritten, stream_append, List.append_assoc]
    | closeSilent =>
      cases h
      refine ⟨rs ++ [], responses_append hanswers .nil, ?_⟩
      rw [List.append_nil, hwritten]
    | closeNotify =>
      have hclosed : (Connection.sendCloseNotification uuid).run mid = .ok ()
          { mid with written :=
              mid.written ++ (TcpResponse.createCloseNotification uuid).toBytes uuid } :=
        run_bind_ok (writeAll_ok hnone _)
      change (Connection.sendCloseNotification uuid).run mid = _ at h
      rw [hclosed] at h
      cases h
      refine ⟨_, responses_append hanswers .closed, ?_⟩
      rw [stream_append, hwritten, List.append_assoc]
      exact congrArg _ (congrArg _ (List.flatMap_singleton _ _).symm)

/-- A connection on which every write succeeds carries the responses of a sequence.
SOURCE: connection.rs:211-248 -/
theorem start_responses {wakes : List Wake} {c c' : Connection σ} (hevents : c.writeEvents = [])
    (h : (Connection.start uuid store wakes).run c = .ok () c') :
    ∃ rs, Responses uuid rs ∧ c'.written = c.written ++ stream uuid rs :=
  startLoop_responses hevents h

/-! ## Reading the bytes -/

/-- The bytes of a value. -/
def valueBytesOf (r : TcpResponse Uuid) : Bytes := r.payload.elim [] asBytes

/-- INTERNAL: the bytes of a response. -/
theorem toBytes_eq (r : TcpResponse Uuid) :
    r.toBytes uuid = uuid.asBytes r.correlationId ++ (r.responseCode :: valueBytesOf r) := by
  unfold TcpResponse.toBytes valueBytesOf
  cases r.payload <;> simp

/-- INTERNAL: the first response has the id and the code that the bytes begin with. -/
theorem stream_cons_inj (huuid : uuid.Documented) {r r' : TcpResponse Uuid}
    {rs rs' : List (TcpResponse Uuid)} (h : stream uuid (r :: rs) = stream uuid (r' :: rs')) :
    r.correlationId = r'.correlationId ∧ r.responseCode = r'.responseCode ∧
      valueBytesOf r ++ stream uuid rs = valueBytesOf r' ++ stream uuid rs' := by
  unfold stream at h
  rw [List.flatMap_cons, List.flatMap_cons, toBytes_eq, toBytes_eq, List.append_assoc,
    List.append_assoc] at h
  have hlength : (uuid.asBytes r.correlationId).length = (uuid.asBytes r'.correlationId).length := by
    rw [huuid.asBytes_length, huuid.asBytes_length]
  obtain ⟨hid, hrest⟩ := List.append_inj h hlength
  rw [List.cons_append, List.cons_append] at hrest
  obtain ⟨hcode, hrest⟩ := List.cons.inj hrest
  refine ⟨?_, hcode, hrest⟩
  rw [← huuid.fromBytes_asBytes r.correlationId, hid, huuid.fromBytes_asBytes]

/-- INTERNAL: a response has bytes. -/
theorem stream_cons_ne_nil (r : TcpResponse Uuid) (rs : List (TcpResponse Uuid)) :
    stream uuid (r :: rs) ≠ [] := by
  unfold stream
  rw [List.flatMap_cons, toBytes_eq]
  simp

/-- INTERNAL: values of the same length that the same bytes begin with. -/
theorem payload_eq_of_length {r r' : TcpResponse Uuid} {after after' : Bytes}
    (hlength : valueLength r = valueLength r')
    (h : valueBytesOf r ++ after = valueBytesOf r' ++ after') :
    r.payload = r'.payload ∧ after = after' := by
  unfold valueLength at hlength
  unfold valueBytesOf at h
  cases hr : r.payload with
  | none =>
    cases hr' : r'.payload with
    | none =>
      rw [hr, hr'] at h
      exact ⟨rfl, h⟩
    | some value' =>
      rw [hr, hr'] at hlength
      cases hlength
  | some value =>
    cases hr' : r'.payload with
    | none =>
      rw [hr, hr'] at hlength
      cases hlength
    | some value' =>
      rw [hr, hr'] at hlength h
      obtain ⟨hvalue, hafter⟩ := List.append_inj h (Option.some.inj hlength)
      have hsome : some value = some value' := by
        rw [← fromUtf8_asBytes value, ← fromUtf8_asBytes value']
        exact congrArg fromUtf8 hvalue
      exact ⟨hsome, hafter⟩

/-- INTERNAL: the framing and the bytes determine the responses. -/
theorem responses_of_framing (huuid : uuid.Documented) {rs rs' : List (TcpResponse Uuid)}
    (hbytes : stream uuid rs = stream uuid rs') (hframing : SameFraming rs rs') : rs = rs' := by
  induction rs generalizing rs' with
  | nil => exact (List.map_eq_nil_iff.mp hframing.symm).symm
  | cons r rs ih =>
    cases rs' with
    | nil => cases hframing
    | cons r' rs' =>
      obtain ⟨hlength, htail⟩ := List.cons.inj hframing
      obtain ⟨hid, hcode, hrest⟩ := stream_cons_inj huuid hbytes
      obtain ⟨hpayload, hafter⟩ := payload_eq_of_length hlength hrest
      obtain ⟨id, code, payload⟩ := r
      obtain ⟨id', code', payload'⟩ := r'
      cases hid
      cases hcode
      cases hpayload
      rw [ih hafter htail]

/-! ## Where two readings part -/

/-- INTERNAL: a response with a code other than that of a success has no value. -/
theorem answer_payload {r : TcpResponse Uuid} (h : Answer r) (hcode : r.responseCode ≠ 0) :
    r.payload = none := by
  cases h with
  | value id value => exact absurd rfl hcode
  | internalError id error => rfl
  | parseError error => rfl

/-- INTERNAL: the first response of a connection is the close notification or an answer. -/
theorem responses_cons {r : TcpResponse Uuid} {rs : List (TcpResponse Uuid)}
    (h : Responses uuid (r :: rs)) :
    (r.responseCode ≠ 0 → r.payload = none) ∧ Responses uuid rs := by
  cases h with
  | closed => exact ⟨fun _ => rfl, .nil⟩
  | cons answer rest => exact ⟨answer_payload answer, rest⟩

/-- INTERNAL: two sequences with the same bytes part at a success. -/
theorem responses_part (huuid : uuid.Documented) {rs rs' : List (TcpResponse Uuid)}
    (hrs : Responses uuid rs) (hrs' : Responses uuid rs')
    (hbytes : stream uuid rs = stream uuid rs') (hne : rs ≠ rs') :
    ∃ common id value value' rest rest', value ≠ value' ∧
      rs = common ++ .fromValue id value :: rest ∧
      rs' = common ++ .fromValue id value' :: rest' := by
  induction rs generalizing rs' with
  | nil =>
    cases rs' with
    | nil => exact absurd rfl hne
    | cons r' rs' => exact absurd hbytes.symm (stream_cons_ne_nil r' rs')
  | cons r rs ih =>
    cases rs' with
    | nil => exact absurd hbytes (stream_cons_ne_nil r rs)
    | cons r' rs' =>
      obtain ⟨hnone, htail⟩ := responses_cons hrs
      obtain ⟨hnone', htail'⟩ := responses_cons hrs'
      obtain ⟨hid, hcode, hrest⟩ := stream_cons_inj huuid hbytes
      obtain ⟨id, code, payload⟩ := r
      obtain ⟨id', code', payload'⟩ := r'
      cases hid
      cases hcode
      by_cases hpayload : payload = payload'
      · subst hpayload
        obtain ⟨common, id', value, value', rest, rest', hdiffer, rfl, rfl⟩ :=
          ih htail htail' (List.append_cancel_left hrest) fun h => hne (congrArg _ h)
        exact ⟨⟨id, code, payload⟩ :: common, id', value, value', rest, rest', hdiffer, rfl, rfl⟩
      · -- only the value of a success can differ behind the same id and code
        have hsuccess : code = 0 := by
          by_contra hfailed
          exact hpayload ((hnone hfailed).trans (hnone' hfailed).symm)
        subst hsuccess
        exact ⟨[], id, payload, payload', rs, rs', hpayload, rfl, rfl⟩

/-- Of two sequences of responses with the same bytes, the framing tells whether they are the same;
if they are not, they part at two successes with one id and different values.
SOURCE: protocol.rs:263-275; connection.rs:130-152 -/
theorem responses_decode_iff (huuid : uuid.Documented) {rs rs' : List (TcpResponse Uuid)}
    (hrs : Responses uuid rs) (hrs' : Responses uuid rs')
    (hbytes : stream uuid rs = stream uuid rs') :
    (rs = rs' ↔ SameFraming rs rs') ∧
      (rs ≠ rs' → ∃ common id value value' rest rest', value ≠ value' ∧
        rs = common ++ .fromValue id value :: rest ∧
        rs' = common ++ .fromValue id value' :: rest') := by
  refine ⟨⟨fun h => congrArg _ h, responses_of_framing huuid hbytes⟩, ?_⟩
  exact responses_part huuid hrs hrs' hbytes

end

/-! ## A value that reads as a response -/

/-- Seventeen bytes, as many as a response without a value has. -/
def zeros : String := String.ofList (List.replicate 17 '\x00')

/-- The answer to a lookup. -/
def zerosFound : List (TcpResponse PlainId) := [.fromValue plainIds.nil (some zeros)]

/-- The answers to two first writes. -/
def twoWritten : List (TcpResponse PlainId) :=
  [.fromValue plainIds.nil none, .fromValue plainIds.nil none]

/-- INTERNAL: a found value is an answer. -/
theorem zerosFound_responses : Responses plainIds zerosFound := .cons (.value ..) .nil

/-- INTERNAL: so are two writes. -/
theorem twoWritten_responses : Responses plainIds twoWritten :=
  .cons (.value ..) (.cons (.value ..) .nil)

/-- INTERNAL: their bytes are the same. -/
theorem zerosFound_stream : stream plainIds zerosFound = stream plainIds twoWritten := by decide

/-- Two sequences of responses with the same bytes and another framing. -/
theorem responses_decode_zeros : zerosFound = twoWritten ↔ SameFraming zerosFound twoWritten :=
  (responses_decode_iff plainIds_documented zerosFound_responses twoWritten_responses
    zerosFound_stream).1

/-- A value of seventeen zero bytes reads as a response of its own. -/
theorem zeros_read_as_response : ¬∀ rs rs' : List (TcpResponse PlainId),
    Responses plainIds rs → Responses plainIds rs' →
      stream plainIds rs = stream plainIds rs' → rs = rs' := by
  intro h
  have hsame := h zerosFound twoWritten zerosFound_responses twoWritten_responses zerosFound_stream
  cases congrArg List.length hsame

end Rkvs.Analysis

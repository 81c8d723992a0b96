import Rkvs.Analysis.RequestCodec
import Rkvs.Analysis.ResponseStream
import Rkvs.Interface.RequestStream

/-!
# A connection on any bytes

What a parser returns depends on the bytes that it has read only, so the requests in the bytes of a
client are those of a framing. One round receives the next one, and the connection answers requests
one after the other until it is cancelled, times out, fails to write, or finds something else.
-/

set_option autoImplicit false

namespace Rkvs.Analysis

open Rkvs.Library Rkvs.Model Rkvs.Interface

/-! ## Parsers -/

section
variable {Uuid α β : Type} {uuid : UuidCrate Uuid}

/-- Parsing in memory has no time to run out. -/
def Punctual (x : TcpExec Uuid α) : Prop := x ≠ .error (.error (.connection .timedOut))

/-- INTERNAL: a step that reads nothing. -/
theorem punctual_checked (x : Exec α) : Punctual (checked x : TcpExec Uuid α) := by
  cases x <;> nofun

/-- INTERNAL: one step after the other. -/
theorem Punctual.bind {x : TcpExec Uuid α} {f : α → TcpExec Uuid β} (hx : Punctual x)
    (hf : ∀ a, Punctual (f a)) : Punctual (x >>= f) := by
  cases x with
  | ok a => exact hf a
  | error e =>
    intro h
    cases h
    exact hx rfl

/-- SOURCE: protocol.rs:85-107 -/
theorem punctual_parseHeaders (buf : Bytes) : Punctual (parseHeaders uuid buf) := by
  unfold parseHeaders
  refine (punctual_checked _).bind fun magic => ?_
  split
  · nofun
  · refine (punctual_checked _).bind fun id => (punctual_checked _).bind fun version => ?_
    dsimp only
    split
    · nofun
    · refine (punctual_checked _).bind fun byte => ?_
      split
      · nofun
      · exact (punctual_checked _).bind fun flags => nofun

/-- SOURCE: protocol.rs:109-148 -/
theorem punctual_parsePayload (buf : Bytes) (requestType : RequestType) (id : Uuid) :
    Punctual (parsePayload buf requestType id) := by
  unfold parsePayload
  refine (punctual_checked _).bind fun keyLen => (punctual_checked _).bind fun keyBytes => ?_
  split
  · nofun
  · split
    · refine (punctual_checked _).bind fun n => ?_
      split
      · nofun
      · refine (punctual_checked _).bind fun valueLen => (punctual_checked _).bind fun bytes => ?_
        split <;> nofun
    · refine (punctual_checked _).bind fun n => ?_
      split <;> nofun
    · refine (punctual_checked _).bind fun n => ?_
      split <;> nofun

/-- What a parser returns depends only on the bytes that it has read, and so do the errors that a
client is told. -/
structure Steady (x : Recv Uuid α) : Prop where
  ok : ∀ {stream left : Bytes} {a : α}, x.run stream = .ok a left →
    ∃ front, stream = front ++ left ∧ ∀ more, x.run (front ++ more) = .ok a more
  parse : ∀ {stream left : Bytes} {e : ParseError Uuid},
    x.run stream = .error (.error (.parse e)) left →
    ∃ front, stream = front ++ left ∧ ∀ more, x.run (front ++ more) = .error (.error (.parse e)) more
  punctual : ∀ stream left, x.run stream ≠ .error (.error (.connection .timedOut)) left

/-- INTERNAL: a step that does not touch the stream. -/
theorem steady_liftTcp {x : TcpExec Uuid α} (h : Punctual x) : Steady (liftTcp x) := by
  cases x with
  | ok a =>
    refine ⟨fun hrun => ?_, nofun, nofun⟩
    cases hrun
    exact ⟨[], rfl, fun more => rfl⟩
  | error e =>
    refine ⟨nofun, fun hrun => ?_, fun stream left hrun => ?_⟩
    · cases hrun
      exact ⟨[], rfl, fun more => rfl⟩
    · cases hrun
      exact h rfl

/-- INTERNAL: reading some bytes. -/
theorem steady_readExact (n : ℕ) : Steady (readExact n : Recv Uuid Bytes) := by
  refine ⟨fun {stream left bytes} hrun => ?_, fun {stream left e} hrun => ?_, fun stream left hrun => ?_⟩
  · obtain ⟨hle, rfl⟩ := readExact_inv hrun
    rw [readExact_ok hle] at hrun
    cases hrun
    refine ⟨stream.take n, (List.take_append_drop n stream).symm, fun more => ?_⟩
    have hlength : (stream.take n).length = n := List.length_take_of_le hle
    rw [readExact_ok (by rw [List.length_append, hlength]; omega), List.take_left' hlength,
      List.drop_left' hlength]
  all_goals
    by_cases hle : n ≤ stream.length
    · rw [readExact_ok hle] at hrun
      cases hrun
    · rw [readExact_end hle] at hrun
      cases hrun

/-- INTERNAL: one read after the other. -/
theorem Steady.bind {x : Recv Uuid α} {f : α → Recv Uuid β} (hx : Steady x)
    (hf : ∀ a, Steady (f a)) : Steady (x >>= f) := by
  refine ⟨fun hrun => ?_, fun hrun => ?_, fun stream left hrun => ?_⟩
  · obtain ⟨a, mid, hfirst, hnext⟩ := run_bind_eq_ok hrun
    obtain ⟨front, rfl, hfront⟩ := hx.ok hfirst
    obtain ⟨front', rfl, hfront'⟩ := (hf a).ok hnext
    refine ⟨front ++ front', (List.append_assoc ..).symm, fun more => ?_⟩
    rw [List.append_assoc, run_bind_ok (hfront _), hfront']
  · obtain hfirst | ⟨a, mid, hfirst, hnext⟩ := run_bind_eq_error hrun
    · obtain ⟨front, rfl, hfront⟩ := hx.parse hfirst
      exact ⟨front, rfl, fun more => run_bind_error (hfront more)⟩
    · obtain ⟨front, rfl, hfront⟩ := hx.ok hfirst
      obtain ⟨front', rfl, hfront'⟩ := (hf a).parse hnext
      refine ⟨front ++ front', (List.append_assoc ..).symm, fun more => ?_⟩
      rw [List.append_assoc, run_bind_ok (hfront _), hfront']
  · obtain hfirst | ⟨a, mid, hfirst, hnext⟩ := run_bind_eq_error hrun
    · exact hx.punctual _ _ hfirst
    · exact (hf a).punctual _ _ hnext

/-- INTERNAL: reading a number. -/
theorem steady_readU32 : Steady (readU32 : Recv Uuid ℕ) := by
  unfold readU32
  rw [map_eq_pure_bind]
  refine (steady_readExact 4).bind fun bytes => ?_
  exact @steady_liftTcp Uuid ℕ (.ok (beValue bytes)) nofun

/-- SOURCE: protocol.rs:173-185 -/
theorem steady_recvTcpRequest (headerLen : ℕ) : Steady (recvTcpRequest uuid headerLen) := by
  unfold recvTcpRequest recvHeaders recvPayload
  refine (steady_readExact _).bind fun buf =>
    (steady_liftTcp (punctual_parseHeaders buf)).bind fun headers => ?_
  refine steady_readU32.bind fun n => (steady_readExact n).bind fun buf' =>
    (steady_liftTcp (punctual_parsePayload buf' _ _)).bind fun payload => ?_
  exact @steady_liftTcp Uuid (TcpRequest Uuid) (.ok ⟨headers, payload⟩) nofun

/-! ## The framing -/

/-- INTERNAL: what is found behind the length of the headers.
SOURCE: connection.rs:69-77 -/
theorem scanRequest_eq {first : Bytes} (hfirst : first.length = 4) (rest : Bytes) :
    scanRequest uuid (first ++ rest) =
      match (recvTcpRequest uuid (beValue first)).run rest with
      | .ok request left =>
        match Operation.fromRequest request with
        | .ok op => .item (.ok ⟨request.headers.correlationId, op⟩) (4 + rest.length - left.length)
        | .error _ => .fail .panic
      | .error (.error (.parse e)) left => .item (.error e) (4 + rest.length - left.length)
      | .error (.error (.connection _)) _ => .stop
      | .error .panic _ => .fail .panic := by
  have hread := @readU32_ok Unit _ (show 4 ≤ (first ++ rest).length by rw [List.length_append]; omega)
  have hlength : (first ++ rest).length = 4 + rest.length := by rw [List.length_append, hfirst]
  rw [List.take_left' hfirst, List.drop_left' hfirst] at hread
  unfold scanRequest
  generalize (readU32 : Recv Unit ℕ).run (first ++ rest) = read at hread ⊢
  generalize (first ++ rest).length = length at hlength ⊢
  subst hread hlength
  rfl

/-- INTERNAL: the end of a connection in the middle of a length. -/
theorem scanRequest_short {bytes : Bytes} (h : ¬4 ≤ bytes.length) :
    scanRequest uuid bytes = .stop := by
  unfold scanRequest
  rw [readU32_end h]

/-- What a parser has found at the beginning of some bytes. -/
inductive Finds (uuid : UuidCrate Uuid) (headerLen : ℕ) (rest left : Bytes) : Received Uuid → Prop
  | asked {request : TcpRequest Uuid} {op : Operation}
      (received : (recvTcpRequest uuid headerLen).run rest = .ok request left)
      (asks : Operation.fromRequest request = .ok op) :
      Finds uuid headerLen rest left (.ok ⟨request.headers.correlationId, op⟩)
  | rejected {e : ParseError Uuid}
      (received : (recvTcpRequest uuid headerLen).run rest = .error (.error (.parse e)) left) :
      Finds uuid headerLen rest left (.error e)

/-- INTERNAL: it is found there whatever follows. -/
theorem Finds.front {headerLen : ℕ} {rest left : Bytes} {received : Received Uuid}
    (h : Finds uuid headerLen rest left received) :
    ∃ front, rest = front ++ left ∧ ∀ more, Finds uuid headerLen (front ++ more) more received := by
  cases h with
  | asked received asks =>
    obtain ⟨front, hrest, hsame⟩ := (steady_recvTcpRequest headerLen).ok received
    exact ⟨front, hrest, fun more => .asked (hsame more) asks⟩
  | rejected received =>
    obtain ⟨front, hrest, hsame⟩ := (steady_recvTcpRequest headerLen).parse received
    exact ⟨front, hrest, fun more => .rejected (hsame more)⟩

/-- INTERNAL: a request begins with the length of its headers. -/
theorem scanRequest_item {bytes : Bytes} {received : Received Uuid} {n : ℕ} :
    scanRequest uuid bytes = .item received n ↔
      ∃ first rest left, bytes = first ++ rest ∧ first.length = 4 ∧
        Finds uuid (beValue first) rest left received ∧ n = 4 + rest.length - left.length := by
  constructor
  · intro h
    by_cases hfour : 4 ≤ bytes.length
    swap
    · rw [scanRequest_short hfour] at h
      cases h
    have hfirst : (bytes.take 4).length = 4 := List.length_take_of_le hfour
    rw [← List.take_append_drop 4 bytes, scanRequest_eq hfirst] at h
    refine ⟨bytes.take 4, bytes.drop 4, ?_⟩
    cases hrecv : (recvTcpRequest uuid (beValue (bytes.take 4))).run (bytes.drop 4) with
    | ok request left =>
      rw [hrecv] at h
      dsimp only at h
      cases hop : Operation.fromRequest request with
      | error e =>
        rw [hop] at h
        cases h
      | ok op =>
        rw [hop] at h
        cases h
        exact ⟨left, (List.take_append_drop 4 bytes).symm, hfirst, .asked hrecv hop, rfl⟩
    | error fault left =>
      rw [hrecv] at h
      obtain (_ | e) | _ := fault
      · cases h
      · cases h
        exact ⟨left, (List.take_append_drop 4 bytes).symm, hfirst, .rejected hrecv, rfl⟩
      · cases h
  · rintro ⟨first, rest, left, rfl, hfirst, hfinds, rfl⟩
    rw [scanRequest_eq hfirst]
    cases hfinds with
    | asked hrecv hop =>
      rw [hrecv]
      dsimp only
      rw [hop]
    | rejected hrecv => rw [hrecv]

/-- INTERNAL: a request is found whatever follows it. -/
theorem scanRequest_front {bytes : Bytes} {received : Received Uuid} {n : ℕ}
    (h : scanRequest uuid bytes = .item received n) :
    ∃ front left, bytes = front ++ left ∧ front.length = n ∧ 4 ≤ n ∧
      ∀ more, scanRequest uuid (front ++ more) = .item received n := by
  obtain ⟨first, rest, left, rfl, hfirst, hfinds, rfl⟩ := scanRequest_item.mp h
  obtain ⟨front, rfl, hsame⟩ := hfinds.front
  refine ⟨first ++ front, left, (List.append_assoc ..).symm, ?_, ?_, fun more => ?_⟩
  · rw [List.length_append, List.length_append]
    omega
  · rw [List.length_append]
    omega
  · refine scanRequest_item.mpr ⟨first, front ++ more, more, List.append_assoc .., hfirst,
      hsame more, ?_⟩
    rw [List.length_append, List.length_append]
    omega

/-- The requests in the bytes of a client. -/
def requestFraming (uuid : UuidCrate Uuid) : Framing UInt8 (Received Uuid) Fault where
  scan := scanRequest uuid
  item_pos := by
    intro bytes received n h
    obtain ⟨front, left, -, -, hfour, -⟩ := scanRequest_front h
    omega
  item_le := by
    intro bytes received n h
    obtain ⟨front, left, rfl, rfl, -, -⟩ := scanRequest_front h
    exact List.length_append ▸ Nat.le_add_right _ _
  item_append := by
    intro bytes received n h more
    obtain ⟨front, left, rfl, -, -, hsame⟩ := scanRequest_front h
    rw [List.append_assoc]
    exact hsame _
  item_take := by
    intro bytes received n h
    obtain ⟨front, left, rfl, hlength, -, hsame⟩ := scanRequest_front h
    rw [List.take_left' hlength, ← List.append_nil front]
    exact hsame []

/-- INTERNAL: how requests are told apart. -/
@[simp] theorem requestFraming_scan (uuid : UuidCrate Uuid) :
    (requestFraming uuid).scan = scanRequest uuid := rfl

end

/-! ## Rounds -/

section
variable {Uuid σ : Type} {uuid : UuidCrate Uuid} {store : Store σ} {c : Connection σ}

/-- INTERNAL: writing changes only what is written, and it goes on as long as no write fails. -/
theorem writeAll_returns (buf : Bytes) (c : Connection σ) :
    ∃ sent written events, (Connection.writeAll buf).run c =
        .ok sent { c with written := written, writeEvents := events } ∧
      (c.writeEvents = [] → sent = true ∧ written = c.written ++ buf ∧ events = []) := by
  obtain ⟨unread, written, events, s⟩ := c
  cases events with
  | nil => exact ⟨true, _, [], rfl, fun _ => ⟨rfl, rfl, rfl⟩⟩
  | cons event events => cases event <;> exact ⟨_, _, events, rfl, nofun⟩

/-- INTERNAL: an error has a code of its own.
SOURCE: protocol.rs:324-342 -/
theorem errorCode_ne_zero {Uuid : Type} (e : TcpError Uuid) : e.toRc ≠ 0 := by
  unfold TcpError.toRc
  split <;> decide

/-- INTERNAL: whether the connection stays alive after the response. -/
theorem sendReply_eq {response : TcpResponse Uuid} {sent : Bool} {mid : Connection σ}
    (h : (Connection.writeAll (response.toBytes uuid)).run c = .ok sent mid) :
    (sendReply uuid response).run c =
      .ok (if sent ∨ response.responseCode = 0 then .keepAlive else .closeSilent) mid := by
  unfold sendReply
  rw [run_bind_ok h]
  split <;> rfl

/-- INTERNAL: the connection stays alive as long as no write fails. -/
theorem sendReply_returns (response : TcpResponse Uuid) (c : Connection σ) :
    ∃ status written events, (sendReply uuid response).run c =
        .ok status { c with written := written, writeEvents := events } ∧
      status ≠ .closeNotify ∧
      (c.writeEvents = [] →
        status = .keepAlive ∧ written = c.written ++ response.toBytes uuid ∧ events = []) := by
  obtain ⟨sent, written, events, hwrite, hsent⟩ := writeAll_returns (response.toBytes uuid) c
  refine ⟨if sent ∨ response.responseCode = 0 then .keepAlive else .closeSilent, written, events,
    ?_, ?_, fun hevents => ?_⟩
  · exact sendReply_eq hwrite
  · split <;> nofun
  · obtain ⟨rfl, hwritten, hnone⟩ := hsent hevents
    exact ⟨if_pos (Or.inl rfl), hwritten, hnone⟩

/-- INTERNAL: what the request asks for is done and answered.
SOURCE: connection.rs:104-128, 154-171 -/
theorem handle_asked {headerLen : ℕ} {request : TcpRequest Uuid} {left : Bytes} {op : Operation}
    (hrecv : (recvTcpRequest uuid headerLen).run c.unread = .ok request left)
    (hop : Operation.fromRequest request = .ok op) :
    (Connection.recvAndHandleTcpRequest uuid store headerLen).run c =
      (sendReply uuid (responseTo request.headers.correlationId
        (perform store op c.store).1)).run
        { c with unread := left, store := (perform store op c.store).2 } := by
  have hhandled : (Connection.handleTcpRequest store request).run { c with unread := left } =
      .ok (perform store op c.store).1
        { c with unread := left, store := (perform store op c.store).2 } := by
    unfold Connection.handleTcpRequest
    rw [hop, run_bind_ok (run_liftExec_ok op _), callStorageEngine_eq]
  unfold Connection.recvAndHandleTcpRequest
  rw [run_bind_ok (onReader_ok hrecv)]
  dsimp only
  rw [run_bind_ok hhandled]
  generalize { c with unread := left, store := (perform store op c.store).2 } = c'
  obtain ⟨sent, written, events, hwrite, -⟩ := @writeAll_returns σ
    ((responseTo request.headers.correlationId (perform store op c.store).1).toBytes uuid) c'
  rw [sendReply_eq hwrite]
  cases hresult : (perform store op c.store).1 with
  | ok value =>
    rw [hresult] at hwrite
    have hsent : (Connection.sendResponse uuid value request.headers.correlationId).run c' =
        .ok () { c' with written := written, writeEvents := events } := run_bind_ok hwrite
    have hcode : (responseTo request.headers.correlationId (.ok value)).responseCode = 0 := rfl
    dsimp only
    rw [run_bind_ok hsent, if_pos (Or.inr hcode)]
    rfl
  | error e =>
    rw [hresult] at hwrite
    have hcode : (responseTo request.headers.correlationId (.error e)).responseCode ≠ 0 := by
      show e.toRc ≠ 0
      cases e <;> decide
    have hsent : (Connection.sendInternalErrorResponse uuid e request.headers.correlationId).run c' =
        .ok sent { c' with written := written, writeEvents := events } := hwrite
    dsimp only
    rw [run_bind_ok hsent]
    cases sent with
    | true => rfl
    | false =>
      rw [if_neg (not_or.mpr ⟨Bool.false_ne_true, hcode⟩)]
      rfl

/-- INTERNAL: a rejected request is answered without the store.
SOURCE: connection.rs:154-185 -/
theorem handle_rejected {headerLen : ℕ} {e : ParseError Uuid} {left : Bytes}
    (hrecv : (recvTcpRequest uuid headerLen).run c.unread = .error (.error (.parse e)) left) :
    (Connection.recvAndHandleTcpRequest uuid store headerLen).run c =
      (sendReply uuid (.fromTcpParseError e)).run { c with unread := left } := by
  unfold Connection.recvAndHandleTcpRequest
  rw [run_bind_ok (onReader_error hrecv)]
  generalize { c with unread := left } = c'
  obtain ⟨sent, written, events, hwrite, -⟩ := @writeAll_returns σ
    ((TcpResponse.fromTcpParseError e).toBytes uuid) c'
  rw [sendReply_eq hwrite]
  dsimp only
  unfold Connection.handleTcpError
  have hsent : (Connection.sendTcpErrorResponse uuid e).run c' =
      .ok sent { c' with written := written, writeEvents := events } := hwrite
  rw [run_bind_ok hsent]
  cases sent with
  | true => rfl
  | false =>
    have hcode : (TcpResponse.fromTcpParseError e).responseCode ≠ 0 := errorCode_ne_zero (.parse e)
    rw [if_neg (not_or.mpr ⟨Bool.false_ne_true, hcode⟩)]
    rfl

/-- INTERNAL: a round reads the length of the headers first.
SOURCE: connection.rs:69-77, 218-234 -/
theorem round_ready {first rest : Bytes} (hunread : c.unread = first ++ rest)
    (hfirst : first.length = 4) :
    (Connection.round uuid store .ready).run c =
      (Connection.recvAndHandleTcpRequest uuid store (beValue first)).run
        { c with unread := rest } := by
  have hread : (readU32 : Recv Unit ℕ).run c.unread = .ok (beValue first) rest := by
    rw [hunread, readU32_ok (by rw [List.length_append]; omega), List.take_left' hfirst,
      List.drop_left' hfirst]
  have hlen : (Connection.recvHeaderLen false).run c =
      .ok (.ok (beValue first)) { c with unread := rest } := by
    unfold Connection.recvHeaderLen
    rw [if_neg (by decide), run_bind_ok (onReader_ok hread)]
    rfl
  unfold Connection.round
  exact run_bind_ok hlen

/-- A round receives what stands at the beginning of the bytes and answers it.
SOURCE: connection.rs:104-128, 154-185, 218-234 -/
theorem round_item {received : Received Uuid} {n : ℕ}
    (h : scanRequest uuid c.unread = .item received n) :
    (Connection.round uuid store .ready).run c =
      (sendReply uuid (reply store c.store received).1).run
        { c with unread := c.unread.drop n, store := (reply store c.store received).2 } := by
  obtain ⟨first, rest, left, hunread, hfirst, hfinds, rfl⟩ := scanRequest_item.mp h
  obtain ⟨front, rfl, -⟩ := hfinds.front
  have hleft : c.unread.drop (4 + (front ++ left).length - left.length) = left := by
    rw [hunread, ← List.append_assoc]
    refine List.drop_left' ?_
    rw [List.length_append, List.length_append]
    omega
  rw [hleft, round_ready hunread hfirst]
  cases hfinds with
  | asked hrecv hop => exact handle_asked hrecv hop
  | rejected hrecv => exact handle_rejected hrecv

/-- INTERNAL: a panic of the parser ends the task. -/
theorem onReader_panic {α : Type} {x : Recv Uuid α} {unread : Bytes}
    (h : x.run c.unread = .error .panic unread) :
    (Connection.onReader x).run c = .error .panic { c with unread := unread } := by
  change Connection.onReader x c = _
  unfold Connection.onReader
  rw [h]

/-- INTERNAL: only a value can be missing.
SOURCE: connection.rs:263-274 -/
theorem fromRequest_error {request : TcpRequest Uuid} {e : Fault}
    (h : Operation.fromRequest request = .error e) : e = .panic := by
  obtain ⟨⟨requestType, id, version, flags⟩, key, value⟩ := request
  cases requestType with
  | get => cases h
  | delete => cases h
  | put =>
    cases value with
    | none =>
      cases h
      rfl
    | some value => cases h

/-- INTERNAL: a round at the end of the requests. -/
theorem round_ends (h : (requestFraming uuid).Ends c.unread) : ∃ unread,
    (Connection.round uuid store .ready).run c = .ok .closeSilent { c with unread := unread } ∨
    scanRequest uuid c.unread = .fail .panic ∧
      (Connection.round uuid store .ready).run c = .error .panic { c with unread := unread } := by
  by_cases hfour : 4 ≤ c.unread.length
  swap
  · exact ⟨[], Or.inl (round_end (Nat.not_le.mp hfour))⟩
  have hfirst : (c.unread.take 4).length = 4 := List.length_take_of_le hfour
  have hunread := (List.take_append_drop 4 c.unread).symm
  have hscan := @scanRequest_eq Uuid uuid _ hfirst (c.unread.drop 4)
  rw [← hunread] at hscan
  rw [round_ready hunread hfirst]
  unfold Connection.recvAndHandleTcpRequest
  cases hrecv : (recvTcpRequest uuid (beValue (c.unread.take 4))).run (c.unread.drop 4) with
  | ok request left =>
    rw [hrecv] at hscan
    dsimp only at hscan
    cases hop : Operation.fromRequest request with
    | ok op =>
      rw [hop] at hscan
      exact absurd hscan (h _ _)
    | error fault =>
      rw [hop] at hscan
      obtain rfl := fromRequest_error hop
      refine ⟨left, Or.inr ⟨hscan, ?_⟩⟩
      rw [run_bind_ok (onReader_ok hrecv)]
      have hpanic : (Connection.handleTcpRequest store request).run { c with unread := left } =
          .error .panic { c with unread := left } := by
        unfold Connection.handleTcpRequest
        rw [hop]
        exact run_bind_error (run_liftExec_error _ _)
      exact run_bind_error hpanic
  | error fault left =>
    rw [hrecv] at hscan
    obtain (e | e) | _ := fault
    · refine ⟨left, Or.inl ?_⟩
      rw [run_bind_ok (onReader_error hrecv)]
      cases e with
      | ioError => rfl
      | wrongMagicBytes => rfl
      | timedOut => exact absurd hrecv ((steady_recvTcpRequest _).punctual _ _)
    · exact absurd hscan (h _ _)
    · refine ⟨left, Or.inr ⟨hscan, run_bind_error ?_⟩⟩
      exact onReader_panic hrecv

/-! ## The loop -/

/-- A connection has received these and left the rest of the bytes: the store has done what was asked
for, and if no write fails, the client has got the responses. -/
structure Served (uuid : UuidCrate Uuid) (store : Store σ) (c c' : Connection σ)
    (received : List (Received Uuid)) (tail : Bytes) (closing : List (TcpResponse Uuid)) : Prop where
  reads : (requestFraming uuid).Reads c.unread received tail
  performed : c'.store = (replies store received c.store).2
  written : c.writeEvents = [] →
    c'.written = c.written ++ stream uuid ((replies store received c.store).1 ++ closing)
  closes : closing = [] ∨ closing = [.createCloseNotification uuid]

/-- INTERNAL: nothing has been received. -/
theorem Served.none {c' : Connection σ} (hstore : c'.store = c.store)
    (hwritten : c'.written = c.written) : Served uuid store c c' [] c.unread [] :=
  ⟨.done _, hstore, fun _ => hwritten.trans (List.append_nil _).symm, Or.inl rfl⟩

/-- INTERNAL: a round comes before the others. -/
theorem Served.cons {received : Received Uuid} {n : ℕ} {rest : List (Received Uuid)} {tail : Bytes}
    {closing : List (TcpResponse Uuid)} {c₁ c' : Connection σ}
    (hscan : scanRequest uuid c.unread = .item received n) (hunread : c₁.unread = c.unread.drop n)
    (hstore : c₁.store = (reply store c.store received).2)
    (hsent : c.writeEvents = [] → c₁.writeEvents = [] ∧
      c₁.written = c.written ++ (reply store c.store received).1.toBytes uuid)
    (h : Served uuid store c₁ c' rest tail closing) :
    Served uuid store c c' (received :: rest) tail closing := by
  have hreplies : replies store (received :: rest) c.store =
      ((reply store c.store received).1 :: (replies store rest c₁.store).1,
        (replies store rest c₁.store).2) := by
    rw [hstore]
    rfl
  refine ⟨.next hscan ?_, ?_, fun hevents => ?_, h.closes⟩
  · rw [← hunread]
    exact h.reads
  · rw [hreplies]
    exact h.performed
  · obtain ⟨hnone, hwritten⟩ := hsent hevents
    rw [hreplies, h.written hnone, hwritten, List.append_assoc]
    rfl

/-- INTERNAL: a round in which the connection is cancelled or times out is the last one. -/
theorem startLoop_cancelled {wakes : List Wake} (hwake : wakes.headD .ready ≠ .ready) (fuel : ℕ) :
    ∃ c', Served uuid store c c' [] c.unread [.createCloseNotification uuid] ∧
      (Connection.startLoop uuid store (fuel + 1) wakes).run c = .ok () c' := by
  obtain ⟨sent, written, events, hwrite, hsent⟩ := @writeAll_returns σ
    ((TcpResponse.createCloseNotification uuid).toBytes uuid) c
  refine ⟨{ c with written := written, writeEvents := events },
    ⟨.done _, rfl, fun hevents => ?_, Or.inr rfl⟩, ?_⟩
  · rw [(hsent hevents).2.1]
    exact congrArg _ (List.flatMap_singleton _ _).symm
  · rw [Connection.startLoop, run_bind_ok (round_close hwake c)]
    exact run_bind_ok hwrite

/-- INTERNAL: so is a round at the end of the requests. -/
theorem startLoop_ends {wakes : List Wake} (hwake : wakes.headD .ready = .ready)
    (hends : (requestFraming uuid).Ends c.unread) (fuel : ℕ) :
    ∃ c', Served uuid store c c' [] c.unread [] ∧
      ((Connection.startLoop uuid store (fuel + 1) wakes).run c = .ok () c' ∨
        (Connection.startLoop uuid store (fuel + 1) wakes).run c = .error .panic c' ∧
          scanRequest uuid c.unread = .fail .panic) := by
  rw [Connection.startLoop, hwake]
  obtain ⟨unread, hround⟩ := @round_ends Uuid σ uuid store c hends
  refine ⟨{ c with unread := unread }, .none rfl rfl, ?_⟩
  obtain hround | ⟨hfail, hround⟩ := hround
  · refine Or.inl ?_
    rw [run_bind_ok hround]
    rfl
  · exact Or.inr ⟨run_bind_error hround, hfail⟩

/-- INTERNAL: the rounds of the loop, by induction on the fuel, of which there is enough. -/
theorem startLoop_serves {fuel : ℕ} (hfuel : c.unread.length < fuel) (wakes : List Wake) :
    ∃ c' received tail closing, Served uuid store c c' received tail closing ∧
      ((Connection.startLoop uuid store fuel wakes).run c = .ok () c' ∨
        (Connection.startLoop uuid store fuel wakes).run c = .error .panic c' ∧
          scanRequest uuid tail = .fail .panic) ∧
      (c.writeEvents = [] → (∀ wake ∈ wakes, wake = .ready) →
        (requestFraming uuid).Ends tail ∧ closing = []) := by
  induction fuel generalizing wakes c with
  | zero => exact absurd hfuel (Nat.not_lt_zero _)
  | succ fuel ih =>
    by_cases hwake : wakes.headD .ready = .ready
    swap
    · obtain ⟨c', hserved, hrun⟩ := @startLoop_cancelled Uuid σ uuid store c _ hwake fuel
      refine ⟨c', [], c.unread, _, hserved, Or.inl hrun, fun _ hready => ?_⟩
      cases wakes with
      | nil => exact absurd rfl hwake
      | cons wake wakes => exact absurd (hready wake List.mem_cons_self) hwake
    by_cases hends : (requestFraming uuid).Ends c.unread
    · obtain ⟨c', hserved, hrun⟩ := @startLoop_ends Uuid σ uuid store c _ hwake hends fuel
      exact ⟨c', [], c.unread, [], hserved, hrun, fun _ _ => ⟨hends, rfl⟩⟩
    · obtain ⟨received, n, hscan⟩ := Framing.exists_item hends
      obtain ⟨status, written, events, hsend, hne, hsent⟩ := @sendReply_returns Uuid σ uuid
        (reply store c.store received).1
        { c with unread := c.unread.drop n, store := (reply store c.store received).2 }
      have hround := (@round_item Uuid σ uuid store c _ _ hscan).trans hsend
      have hpos := (requestFraming uuid).item_pos hscan
      have hle := (requestFraming uuid).item_le hscan
      have hshort : (c.unread.drop n).length < fuel := by
        rw [List.length_drop]
        omega
      rw [Connection.startLoop, hwake, run_bind_ok hround]
      cases status with
      | closeNotify => exact absurd rfl hne
      | closeSilent =>
        refine ⟨_, [received], _, [], Served.cons hscan rfl rfl (fun hevents => ?_) (.none rfl rfl),
          Or.inl rfl, fun hevents _ => ?_⟩
        · exact ⟨(hsent hevents).2.2, (hsent hevents).2.1⟩
        · cases (hsent hevents).1
      | keepAlive =>
        obtain ⟨c', rest, tail, closing, hserved, hrun, hall⟩ :=
          ih (c := ⟨_, written, events, (reply store c.store received).2⟩) hshort wakes.tail
        refine ⟨c', received :: rest, tail, closing, hserved.cons hscan rfl rfl fun hevents => ?_,
          hrun, fun hevents hready => ?_⟩
        · exact ⟨(hsent hevents).2.2, (hsent hevents).2.1⟩
        · exact hall (hsent hevents).2.2 fun wake hmem => hready wake (List.mem_of_mem_tail hmem)

/-- On any bytes a connection does what the requests say with which they begin, in their order and
once each, and answers all requests and all that it rejects. Only a cancellation, a timeout or a write
that fails makes it stop before there is no request any more, and it panics only there.
SOURCE: connection.rs:69-77, 104-185, 211-248; protocol.rs:173-185 -/
theorem start_serves (wakes : List Wake) (c : Connection σ) :
    ∃ c' received tail closing, Served uuid store c c' received tail closing ∧
      ((Connection.start uuid store wakes).run c = .ok () c' ∨
        (Connection.start uuid store wakes).run c = .error .panic c' ∧
          scanRequest uuid tail = .fail .panic) ∧
      (c.writeEvents = [] → (∀ wake ∈ wakes, wake = .ready) →
        (requestFraming uuid).Ends tail ∧ closing = []) :=
  startLoop_serves (Nat.lt_succ_self _) wakes

end

end Rkvs.Analysis

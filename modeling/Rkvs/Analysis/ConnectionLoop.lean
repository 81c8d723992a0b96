import Rkvs.Analysis.FrameParser

/-!
# The connection loop

A round of the loop answers one frame. Rounds follow one another until the connection is
cancelled, times out, or has no whole frame left.
-/

set_option autoImplicit false

namespace Rkvs.Analysis

open Rkvs.Library Rkvs.Model Rkvs.Interface

section
variable {Uuid σ : Type} {uuid : UuidCrate Uuid} {store : Store σ}

/-! ## Single steps -/

/-- INTERNAL: a read that returns. -/
theorem onReader_ok {α : Type} {x : Recv Uuid α} {c : Connection σ} {a : α} {unread : Bytes}
    (h : x.run c.unread = .ok a unread) :
    (Connection.onReader x).run c = .ok (.ok a) { c with unread := unread } := by
  change Connection.onReader x c = _
  unfold Connection.onReader
  rw [h]

/-- INTERNAL: a read that fails. -/
theorem onReader_error {α : Type} {x : Recv Uuid α} {c : Connection σ} {e : TcpError Uuid}
    {unread : Bytes} (h : x.run c.unread = .error (.error e) unread) :
    (Connection.onReader x).run c = .ok (.error e) { c with unread := unread } := by
  change Connection.onReader x c = _
  unfold Connection.onReader
  rw [h]

/-- INTERNAL: a write without a fault. -/
theorem writeAll_ok {c : Connection σ} (h : c.writeEvents = []) (buf : Bytes) :
    (Connection.writeAll buf).run c = .ok true { c with written := c.written ++ buf } := by
  obtain ⟨unread, written, events, state⟩ := c
  subst h
  rfl

/-- The store performs an operation.
SOURCE: connection.rs:111-127 -/
theorem callStorageEngine_eq (op : Operation) (c : Connection σ) :
    (Connection.callStorageEngine store op).run c =
      .ok (perform store op c.store).1 { c with store := (perform store op c.store).2 } := by
  cases op with
  | put data => rfl
  | delete key => rfl
  | get key =>
    unfold Connection.callStorageEngine perform
    have hcall : (Connection.onStore (store.get key)).run c =
        .ok (store.get key c.store).1 { c with store := (store.get key c.store).2 } := rfl
    dsimp only
    rw [run_bind_ok hcall]
    obtain ⟨answer, s⟩ := store.get key c.store
    cases answer with
    | error e => rfl
    | ok value => cases value <;> rfl

/-- INTERNAL: the operation of the request of a frame. -/
theorem handleTcpRequest_eq (f : Frame) (op : Operation) (c : Connection σ) :
    (Connection.handleTcpRequest store (f.request uuid op)).run c =
      .ok (perform store op c.store).1 { c with store := (perform store op c.store).2 } := by
  have hop : Operation.fromRequest (f.request uuid op) = .ok op := by cases op <;> rfl
  unfold Connection.handleTcpRequest
  rw [hop, run_bind_ok (run_liftExec_ok op c), callStorageEngine_eq]

/-- INTERNAL: the bytes of a response to a frame. -/
theorem response_toBytes (huuid : uuid.Documented) (f : Frame) (code : UInt8)
    (payload : Option String) :
    (⟨uuid.fromBytes f.id, code, payload⟩ : TcpResponse Uuid).toBytes uuid =
      f.id ++ [code] ++ (payload.elim [] asBytes) := by
  unfold TcpResponse.toBytes
  rw [huuid.asBytes_fromBytes _ f.id_length]
  cases payload <;> rfl

/-- INTERNAL: the id of the request of a frame. -/
theorem request_id (f : Frame) (op : Operation) :
    (f.request uuid op).headers.correlationId = uuid.fromBytes f.id := by
  cases op <;> rfl

/-- INTERNAL: a rejected frame is rejected under its own id. -/
theorem meaning_id {f : Frame} {e : ParseError Uuid} (h : f.meaning uuid = .error e) :
    e.extractCorrelationId = uuid.fromBytes f.id := by
  unfold Frame.meaning Frame.operation at h
  repeat' split at h
  all_goals first | cases h; rfl | cases h

/-- INTERNAL: an error of the parser is answered.
SOURCE: connection.rs:173-185 -/
theorem handleTcpError_parse (huuid : uuid.Documented) {f : Frame} {e : ParseError Uuid}
    (hmeaning : f.meaning uuid = .error e) {c : Connection σ} (hevents : c.writeEvents = []) :
    (Connection.handleTcpError uuid (.parse e)).run c =
      .ok .keepAlive { c with written := c.written ++ (f.id ++ [(TcpError.parse e).toRc]) } := by
  have hbytes : (TcpResponse.fromTcpParseError e).toBytes uuid =
      f.id ++ [(TcpError.parse e).toRc] := by
    unfold TcpResponse.fromTcpParseError
    rw [meaning_id hmeaning, response_toBytes huuid]
    exact List.append_nil _
  unfold Connection.handleTcpError Connection.sendTcpErrorResponse
  rw [run_bind_ok (writeAll_ok hevents _), hbytes]
  rfl

/-! ## Rounds -/

/-- A frame of a known version and type is answered.
SOURCE: connection.rs:153-171 -/
theorem handle_known (huuid : uuid.Documented) {f : Frame} (hknown : f.Known) {rest : Bytes}
    {c : Connection σ} (hunread : c.unread = f.headers ++ f.body ++ rest)
    (hevents : c.writeEvents = []) :
    (Connection.recvAndHandleTcpRequest uuid store f.headers.length).run c =
      .ok .keepAlive ⟨rest, c.written ++ (answer uuid store f c.store).1, [],
        (answer uuid store f c.store).2⟩ := by
  obtain ⟨unread, written, events, s⟩ := c
  subst hunread hevents
  have hrecv := recv_known uuid hknown rest
  unfold Connection.recvAndHandleTcpRequest answer
  cases hmeaning : f.meaning uuid with
  | error e =>
    rw [hmeaning] at hrecv
    rw [run_bind_ok (onReader_error hrecv)]
    exact handleTcpError_parse huuid hmeaning rfl
  | ok op =>
    rw [hmeaning] at hrecv
    rw [run_bind_ok (onReader_ok hrecv)]
    dsimp only
    rw [run_bind_ok (handleTcpRequest_eq f op _), request_id]
    generalize perform store op s = result
    obtain ⟨result, s'⟩ := result
    cases result with
    | ok value =>
      have hbytes : (TcpResponse.fromValue (uuid.fromBytes f.id) value).toBytes uuid =
          responseBytes f.id (.ok value) := by
        rw [TcpResponse.fromValue, response_toBytes huuid]
        cases value with
        | none => exact List.append_nil _
        | some value => rfl
      dsimp only
      unfold Connection.sendResponse
      rw [hbytes]
      rfl
    | error e =>
      have hbytes : (TcpResponse.fromInternalError (uuid.fromBytes f.id) e).toBytes uuid =
          responseBytes f.id (.error e) := by
        rw [TcpResponse.fromInternalError, response_toBytes huuid]
        exact List.append_nil _
      dsimp only
      unfold Connection.sendInternalErrorResponse
      rw [hbytes]
      rfl

/-- Of any other frame only the headers are read, and the body is left for the next round.
SOURCE: connection.rs:153-171 -/
theorem handle_unknown (huuid : uuid.Documented) {f : Frame} (hknown : ¬f.Known) {rest : Bytes}
    {c : Connection σ} (hunread : c.unread = f.headers ++ f.body ++ rest)
    (hevents : c.writeEvents = []) :
    (Connection.recvAndHandleTcpRequest uuid store f.headers.length).run c =
      .ok .keepAlive ⟨f.body ++ rest, c.written ++ (answer uuid store f c.store).1, [],
        (answer uuid store f c.store).2⟩ := by
  obtain ⟨unread, written, events, s⟩ := c
  subst hunread hevents
  obtain ⟨e, hmeaning, hrecv⟩ := recv_unknown uuid hknown rest
  unfold Connection.recvAndHandleTcpRequest answer
  rw [run_bind_ok (onReader_error hrecv), hmeaning]
  exact handleTcpError_parse huuid hmeaning rfl

/-- INTERNAL: a round with a frame to come reads the length of its headers.
SOURCE: connection.rs:218-224 -/
theorem round_frame (f : Frame) {rest : Bytes} {c : Connection σ}
    (hunread : c.unread = f.bytes ++ rest) :
    (Connection.round uuid store .ready).run c =
      (Connection.recvAndHandleTcpRequest uuid store f.headers.length).run
        { c with unread := f.headers ++ f.body ++ rest } := by
  have hread : (readU32 : Recv Unit ℕ).run c.unread =
      .ok f.headers.length (f.headers ++ f.body ++ rest) := by
    rw [hunread, readU32_frame]
  have hlen : (Connection.recvHeaderLen false).run c =
      .ok (.ok f.headers.length) { c with unread := f.headers ++ f.body ++ rest } := by
    unfold Connection.recvHeaderLen
    rw [if_neg (by decide), run_bind_ok (onReader_ok hread)]
    rfl
  unfold Connection.round
  exact run_bind_ok hlen

/-- A round answers a frame of a known version and type. -/
theorem round_known (huuid : uuid.Documented) {f : Frame} (hknown : f.Known) {rest : Bytes}
    {c : Connection σ} (hunread : c.unread = f.bytes ++ rest) (hevents : c.writeEvents = []) :
    (Connection.round uuid store .ready).run c =
      .ok .keepAlive ⟨rest, c.written ++ (answer uuid store f c.store).1, [],
        (answer uuid store f c.store).2⟩ := by
  rw [round_frame f hunread]
  exact handle_known huuid hknown rfl hevents

/-- A round rejects any other frame and leaves its body for the next round. -/
theorem round_unknown (huuid : uuid.Documented) {f : Frame} (hknown : ¬f.Known) {rest : Bytes}
    {c : Connection σ} (hunread : c.unread = f.bytes ++ rest) (hevents : c.writeEvents = []) :
    (Connection.round uuid store .ready).run c =
      .ok .keepAlive ⟨f.body ++ rest, c.written ++ (answer uuid store f c.store).1, [],
        (answer uuid store f c.store).2⟩ := by
  rw [round_frame f hunread]
  exact handle_unknown huuid hknown rfl hevents

/-- INTERNAL: a round without four bytes to come ends the connection.
SOURCE: connection.rs:225-231 -/
theorem round_end {c : Connection σ} (hunread : c.unread.length < 4) :
    (Connection.round uuid store .ready).run c = .ok .closeSilent { c with unread := [] } := by
  have hread : (readU32 : Recv Unit ℕ).run c.unread = _ := readU32_end (Nat.not_le.mpr hunread)
  have hlen : (Connection.recvHeaderLen false).run c =
      .ok (.error .silent) { c with unread := [] } := by
    unfold Connection.recvHeaderLen
    rw [if_neg (by decide), run_bind_ok (onReader_error hread)]
    rfl
  unfold Connection.round
  exact run_bind_ok hlen

/-- INTERNAL: a round that is cancelled or times out reads nothing.
SOURCE: connection.rs:219-231 -/
theorem round_close {wake : Wake} (hwake : wake ≠ .ready) (c : Connection σ) :
    (Connection.round uuid store wake).run c = .ok .closeNotify c := by
  cases wake with
  | ready => exact absurd rfl hwake
  | cancelled => rfl
  | timedOut => rfl

/-- INTERNAL: a request that has not arrived as a whole ends the connection.
SOURCE: protocol.rs:173-185 -/
theorem recv_partial {f : Frame} (hknown : f.Known) {k : ℕ}
    (hk : k < (f.headers ++ f.body).length) :
    (recvTcpRequest uuid f.headers.length).run ((f.headers ++ f.body).take k) =
      .error (.error (.connection .ioError)) [] := by
  obtain ⟨hversion, hsmall⟩ := hknown
  obtain ⟨requestType, htype⟩ := Option.isSome_iff_exists.mp (parseRequestType_isSome.mpr hsmall)
  have hlt := payload_lt f
  unfold recvTcpRequest recvHeaders recvPayload
  rw [List.length_append] at hk
  by_cases hheaders : f.headers.length ≤ k
  swap
  · exact run_bind_error (readExact_end (by rw [List.length_take]; omega))
  rw [List.take_append, List.take_of_length_le hheaders, run_bind_ok (readExact_append _ _),
    parseHeaders_eq uuid (headers_inRange f), readHeaders_frame, if_pos hversion, htype]
  dsimp only
  rw [Except.mapError, run_bind_ok (run_liftTcp_ok _ _)]
  by_cases hfour : 4 ≤ k - f.headers.length
  swap
  · exact run_bind_error (readU32_end (by rw [List.length_take]; omega))
  have hbody : f.body.length = 4 + f.payload.length := by
    rw [Frame.body, List.length_append, beBytes_length]
  have htake : f.body.take (k - f.headers.length) =
      beBytes 4 f.payload.length ++ f.payload.take (k - f.headers.length - 4) := by
    rw [Frame.body, List.take_append, List.take_of_length_le (by rwa [beBytes_length]),
      beBytes_length]
  have hlen : (readU32 : Recv Uuid ℕ).run (f.body.take (k - f.headers.length)) =
      .ok f.payload.length (f.payload.take (k - f.headers.length - 4)) := by
    rw [readU32_ok (by rw [List.length_take]; omega), htake,
      List.take_left' (beBytes_length ..), List.drop_left' (beBytes_length ..),
      beValue_beBytes (by omega)]
  rw [run_bind_ok hlen]
  exact run_bind_error (readExact_end (by rw [List.length_take]; omega))

/-- INTERNAL: a round without a whole frame to come ends the connection.
SOURCE: connection.rs:218-234 -/
theorem round_partial {f : Frame} (hknown : f.Known) {k : ℕ} (hk : k < f.bytes.length)
    {c : Connection σ} (hunread : c.unread = f.bytes.take k) :
    (Connection.round uuid store .ready).run c = .ok .closeSilent { c with unread := [] } := by
  by_cases hfour : 4 ≤ k
  swap
  · exact round_end (by rw [hunread, List.length_take]; omega)
  have hbytes : f.bytes = beBytes 4 f.headers.length ++ (f.headers ++ f.body) := by
    rw [Frame.bytes, List.append_assoc]
  have hheaders : f.headers.length < 256 ^ 4 := by
    rw [headers_length]
    exact f.options_length
  have htake : c.unread = beBytes 4 f.headers.length ++ (f.headers ++ f.body).take (k - 4) := by
    rw [hunread, hbytes, List.take_append, List.take_of_length_le (by rwa [beBytes_length]),
      beBytes_length]
  have hread : (readU32 : Recv Unit ℕ).run c.unread =
      .ok f.headers.length ((f.headers ++ f.body).take (k - 4)) := by
    rw [htake, readU32_ok (by simp), List.take_left' (beBytes_length ..),
      List.drop_left' (beBytes_length ..), beValue_beBytes hheaders]
  have hlen : (Connection.recvHeaderLen false).run c =
      .ok (.ok f.headers.length) { c with unread := (f.headers ++ f.body).take (k - 4) } := by
    unfold Connection.recvHeaderLen
    rw [if_neg (by decide), run_bind_ok (onReader_ok hread)]
    rfl
  have hrecv : (recvTcpRequest uuid f.headers.length).run ((f.headers ++ f.body).take (k - 4)) =
      .error (.error (.connection .ioError)) [] := by
    apply recv_partial hknown
    rw [hbytes, List.length_append, beBytes_length] at hk
    omega
  have hhandle : (Connection.recvAndHandleTcpRequest uuid store f.headers.length).run
      { c with unread := (f.headers ++ f.body).take (k - 4) } =
        .ok .closeSilent { c with unread := [] } := by
    have hfail : (Connection.onReader (recvTcpRequest uuid f.headers.length)).run
        { c with unread := (f.headers ++ f.body).take (k - 4) } =
          .ok (.error (.connection .ioError)) { c with unread := [] } := onReader_error hrecv
    unfold Connection.recvAndHandleTcpRequest
    exact run_bind_ok hfail
  unfold Connection.round
  rw [← hhandle]
  exact run_bind_ok hlen

/-! ## The loop -/

/-- INTERNAL: a frame has bytes. -/
theorem bytes_pos (f : Frame) : 0 < f.bytes.length := by
  simp [Frame.bytes]

/-- INTERNAL: the loop goes on. -/
theorem startLoop_keepAlive {fuel : ℕ} {wakes : List Wake} {c c' : Connection σ}
    (hround : (Connection.round uuid store (wakes.headD .ready)).run c = .ok .keepAlive c') :
    (Connection.startLoop uuid store (fuel + 1) wakes).run c =
      (Connection.startLoop uuid store fuel wakes.tail).run c' := by
  rw [Connection.startLoop]
  exact run_bind_ok hround

/-- INTERNAL: the loop ends without a notification. -/
theorem startLoop_silent {fuel : ℕ} {wakes : List Wake} {c c' : Connection σ}
    (hround : (Connection.round uuid store (wakes.headD .ready)).run c = .ok .closeSilent c') :
    (Connection.startLoop uuid store (fuel + 1) wakes).run c = .ok () c' := by
  rw [Connection.startLoop]
  exact run_bind_ok hround

/-- INTERNAL: the loop ends with a notification.
SOURCE: connection.rs:236-239 -/
theorem startLoop_notify (huuid : uuid.Documented) {fuel : ℕ} {wakes : List Wake}
    {c : Connection σ} (hwake : wakes.headD .ready ≠ .ready) (hevents : c.writeEvents = []) :
    (Connection.startLoop uuid store (fuel + 1) wakes).run c =
      .ok () { c with written := c.written ++ closeBytes } := by
  have hbytes : (TcpResponse.createCloseNotification uuid).toBytes uuid = closeBytes := by
    unfold TcpResponse.toBytes TcpResponse.createCloseNotification
    rw [huuid.asBytes_nil]
    exact List.append_nil _
  have hsend : (Connection.sendCloseNotification uuid).run c =
      .ok () { c with written := c.written ++ closeBytes } := by
    unfold Connection.sendCloseNotification
    rw [hbytes, run_bind_ok (writeAll_ok hevents _)]
    rfl
  rw [Connection.startLoop, ← hsend]
  exact run_bind_ok (round_close hwake c)

/-- INTERNAL: how the next round ends. -/
theorem getElem?_zero_getD (wakes : List Wake) : wakes[0]?.getD .ready = wakes.headD .ready := by
  cases wakes <;> rfl

/-- INTERNAL: the loop is woken before it reads.
SOURCE: connection.rs:219-231 -/
theorem startLoop_woken (huuid : uuid.Documented) {frames : List Frame} {k : ℕ}
    {wakes : List Wake} {c : Connection σ} (hwake : wakes.headD .ready ≠ .ready)
    (hevents : c.writeEvents = []) {fuel : ℕ} :
    ∃ n ≤ frames.length, ∃ unread last, StopsAfter frames k wakes n last ∧
      (Connection.startLoop uuid store (fuel + 1) wakes).run c = .ok () ⟨unread,
        c.written ++ (answers uuid store (frames.take n) c.store).1 ++ last, [],
        (answers uuid store (frames.take n) c.store).2⟩ := by
  obtain ⟨unread, written, events, s⟩ := c
  subst hevents
  cases wakes with
  | nil => exact absurd rfl hwake
  | cons wake wakes =>
    refine ⟨0, Nat.zero_le _, unread, closeBytes, .woken rfl hwake, ?_⟩
    rw [startLoop_notify huuid hwake rfl]
    simp [answers]

/-- INTERNAL: a frame that has arrived before. -/
theorem stopsAfter_cons {f : Frame} {frames : List Frame} {k n : ℕ} {wakes : List Wake}
    {last : Bytes} (hwhole : f.bytes.length ≤ k)
    (h : StopsAfter frames (k - f.bytes.length) wakes.tail n last) :
    StopsAfter (f :: frames) k wakes (n + 1) last := by
  have hnext : wakes.tail[n]? = wakes[n + 1]? := List.getElem?_tail
  cases h with
  | woken round wake_ne => exact .woken (hnext ▸ round) wake_ne
  | ended round short =>
    refine .ended (hnext ▸ round) ?_
    intro hn
    have hmissing := short (by simpa using hn)
    rw [List.take_succ_cons, List.flatMap_cons, List.length_append]
    omega

/-- The loop answers the frames that arrive until it is woken or the stream ends.
SOURCE: connection.rs:212-248 -/
theorem startLoop_answers (huuid : uuid.Documented) {frames : List Frame}
    (hknown : ∀ f ∈ frames, f.Known) {k : ℕ} {wakes : List Wake} {c : Connection σ}
    (hunread : c.unread = (frames.flatMap Frame.bytes).take k) (hevents : c.writeEvents = [])
    {fuel : ℕ} (hfuel : c.unread.length < fuel) :
    ∃ n ≤ frames.length, ∃ unread last, StopsAfter frames k wakes n last ∧
      (Connection.startLoop uuid store fuel wakes).run c = .ok () ⟨unread,
        c.written ++ (answers uuid store (frames.take n) c.store).1 ++ last, [],
        (answers uuid store (frames.take n) c.store).2⟩ := by
  induction frames generalizing k wakes c fuel with
  | nil =>
    obtain ⟨unread, written, events, s⟩ := c
    subst hevents hunread
    obtain ⟨fuel, rfl⟩ := Nat.exists_eq_add_one.mpr (Nat.zero_lt_of_lt hfuel)
    by_cases hwake : wakes.headD .ready = .ready
    swap
    · exact startLoop_woken huuid hwake rfl
    refine ⟨0, le_rfl, [], [], .ended (by rwa [getElem?_zero_getD]) (by simp), ?_⟩
    have hround : (Connection.round uuid store .ready).run
        ⟨(List.flatMap Frame.bytes []).take k, written, [], s⟩ = _ := round_end (by simp)
    rw [← hwake] at hround
    rw [startLoop_silent hround]
    simp [answers]
  | cons f frames ih =>
    obtain ⟨unread, written, events, s⟩ := c
    subst hevents hunread
    obtain ⟨fuel, rfl⟩ := Nat.exists_eq_add_one.mpr (Nat.zero_lt_of_lt hfuel)
    by_cases hwake : wakes.headD .ready = .ready
    swap
    · exact startLoop_woken huuid hwake rfl
    have hf := hknown f (List.mem_cons_self ..)
    by_cases hwhole : f.bytes.length ≤ k
    · -- the frame has arrived
      have hsplit : ((f :: frames).flatMap Frame.bytes).take k =
          f.bytes ++ (frames.flatMap Frame.bytes).take (k - f.bytes.length) := by
        rw [List.flatMap_cons, List.take_append, List.take_of_length_le hwhole]
      have hround : (Connection.round uuid store .ready).run
          ⟨((f :: frames).flatMap Frame.bytes).take k, written, [], s⟩ = _ :=
        round_known huuid hf hsplit rfl
      rw [← hwake] at hround
      have hrest : ((frames.flatMap Frame.bytes).take (k - f.bytes.length)).length < fuel := by
        have hpos := bytes_pos f
        dsimp only at hfuel
        rw [hsplit, List.length_append] at hfuel
        omega
      have hafter := @ih (fun g hg => hknown g (List.mem_cons_of_mem _ hg)) (k - f.bytes.length)
        wakes.tail ⟨(frames.flatMap Frame.bytes).take (k - f.bytes.length),
          written ++ (answer uuid store f s).1, [], (answer uuid store f s).2⟩ rfl rfl fuel hrest
      obtain ⟨n, hn, unread, last, hstops, hrun⟩ := hafter
      refine ⟨n + 1, by simpa using hn, unread, last, stopsAfter_cons hwhole hstops, ?_⟩
      rw [startLoop_keepAlive hround, hrun]
      simp [answers]
    · -- the stream ends within the frame
      have hshort : k < f.bytes.length := Nat.not_le.mp hwhole
      have hcut : ((f :: frames).flatMap Frame.bytes).take k = f.bytes.take k := by
        rw [List.flatMap_cons, List.take_append, Nat.sub_eq_zero_of_le hshort.le, List.take_zero,
          List.append_nil]
      have hround : (Connection.round uuid store .ready).run
          ⟨((f :: frames).flatMap Frame.bytes).take k, written, [], s⟩ = _ :=
        round_partial hf hshort hcut
      rw [← hwake] at hround
      refine ⟨0, Nat.zero_le _, [], [], .ended (by rwa [getElem?_zero_getD]) ?_, ?_⟩
      · intro _
        simpa using hshort
      · rw [startLoop_silent hround]
        simp [answers]

/-- INTERNAL: the same from the start, and all frames are answered if nothing wakes the
connection.
SOURCE: connection.rs:212-248 -/
theorem start_answers (store : Store σ) (huuid : uuid.Documented) {frames : List Frame}
    (hknown : ∀ f ∈ frames, f.Known) {k : ℕ} (wakes : List Wake) {c : Connection σ}
    (hunread : c.unread = (frames.flatMap Frame.bytes).take k) (hevents : c.writeEvents = []) :
    ∃ n ≤ frames.length, ∃ unread last, StopsAfter frames k wakes n last ∧
      (Connection.start uuid store wakes).run c = .ok () ⟨unread,
        c.written ++ (answers uuid store (frames.take n) c.store).1 ++ last, [],
        (answers uuid store (frames.take n) c.store).2⟩ ∧
      ((∀ wake ∈ wakes, wake = .ready) → (frames.flatMap Frame.bytes).length ≤ k →
        n = frames.length ∧ last = []) := by
  obtain ⟨n, hn, unread, last, hstops, hrun⟩ :=
    startLoop_answers huuid hknown hunread hevents (Nat.lt_succ_self c.unread.length)
  refine ⟨n, hn, unread, last, hstops, hrun, ?_⟩
  intro hready hwhole
  cases hstops with
  | woken round wake_ne => exact absurd (hready _ (List.mem_of_getElem? round)) wake_ne
  | ended round short =>
    refine ⟨?_, rfl⟩
    by_contra hne
    have hmissing := short (by omega)
    have hsplit := congrArg (List.flatMap Frame.bytes) (List.take_append_drop (n + 1) frames)
    have hlen := congrArg List.length hsplit
    rw [List.flatMap_append, List.length_append] at hlen
    omega

/-- A connection answers a prefix of the requests that arrive, in order and each once, with the
results of the store under the ids of the requests. It then writes a notification if it was
cancelled or timed out. If it never is and the whole stream arrives, it answers all of them.
SOURCE: connection.rs:103-249 -/
theorem start_answers_prefix (huuid : uuid.Documented) {frames : List Frame}
    (hwell : ∀ f ∈ frames, ∃ op, f.meaning uuid = .ok op) {k : ℕ} (wakes : List Wake)
    {c : Connection σ} (hunread : c.unread = (frames.flatMap Frame.bytes).take k)
    (hevents : c.writeEvents = []) :
    ∃ n ≤ frames.length, ∃ unread last, StopsAfter frames k wakes n last ∧
      (Connection.start uuid store wakes).run c = .ok () ⟨unread,
        c.written ++ (answers uuid store (frames.take n) c.store).1 ++ last, [],
        (answers uuid store (frames.take n) c.store).2⟩ ∧
      ((∀ wake ∈ wakes, wake = .ready) → (frames.flatMap Frame.bytes).length ≤ k →
        n = frames.length ∧ last = []) := by
  have hknown : ∀ f ∈ frames, f.Known := by
    intro f hf
    obtain ⟨op, hop⟩ := hwell f hf
    by_contra hunknown
    obtain ⟨e, he, -⟩ := recv_unknown uuid hunknown []
    cases he.symm.trans hop
  exact start_answers store huuid hknown wakes hunread hevents

/-- INTERNAL: what a connection looks like while it is synchronised.
SOURCE: connection.rs:217-247 -/
theorem visited_known (huuid : uuid.Documented) {frames : List Frame}
    (hknown : ∀ f ∈ frames, f.Known) {c : Connection σ}
    (hunread : c.unread = frames.flatMap Frame.bytes) (hevents : c.writeEvents = []) {fuel : ℕ}
    (hfuel : c.unread.length < fuel) :
    (visited uuid store fuel c).map Connection.unread =
      frames.tails.map (List.flatMap Frame.bytes) := by
  induction frames generalizing c fuel with
  | nil =>
    obtain ⟨fuel, rfl⟩ := Nat.exists_eq_add_one.mpr (Nat.zero_lt_of_lt hfuel)
    have hround : (Connection.round uuid store .ready).run c = _ :=
      round_end (by rw [hunread]; decide)
    rw [visited, hround]
    simpa using hunread
  | cons f frames ih =>
    obtain ⟨fuel, rfl⟩ := Nat.exists_eq_add_one.mpr (Nat.zero_lt_of_lt hfuel)
    have hsplit : c.unread = f.bytes ++ frames.flatMap Frame.bytes := by
      rw [hunread, List.flatMap_cons]
    have hrest : (frames.flatMap Frame.bytes).length < fuel := by
      have hpos := bytes_pos f
      rw [hsplit, List.length_append] at hfuel
      omega
    have hround : (Connection.round uuid store .ready).run c = _ :=
      round_known huuid (hknown f (List.mem_cons_self ..)) hsplit hevents
    rw [visited, hround]
    dsimp only
    rw [List.map_cons, List.tails, List.map_cons, hunread,
      ih (fun g hg => hknown g (List.mem_cons_of_mem _ hg)) rfl rfl hrest]

/-- INTERNAL: a connection that stays synchronised has seen frames of known versions and types
only.
SOURCE: connection.rs:217-247 -/
theorem known_of_visited (huuid : uuid.Documented) {frames : List Frame} {c : Connection σ}
    (hunread : c.unread = frames.flatMap Frame.bytes) (hevents : c.writeEvents = []) {fuel : ℕ}
    (hfuel : c.unread.length < fuel)
    (hvisited : (visited uuid store fuel c).map Connection.unread =
      frames.tails.map (List.flatMap Frame.bytes)) : ∀ f ∈ frames, f.Known := by
  induction frames generalizing c fuel with
  | nil => simp
  | cons f frames ih =>
    obtain ⟨fuel, rfl⟩ := Nat.exists_eq_add_one.mpr (Nat.zero_lt_of_lt hfuel)
    have hsplit : c.unread = f.bytes ++ frames.flatMap Frame.bytes := by
      rw [hunread, List.flatMap_cons]
    have hrest : (frames.flatMap Frame.bytes).length < fuel := by
      have hpos := bytes_pos f
      rw [hsplit, List.length_append] at hfuel
      omega
    by_cases hf : f.Known
    · have hround : (Connection.round uuid store .ready).run c = _ :=
        round_known huuid hf hsplit hevents
      rw [visited, hround] at hvisited
      dsimp only at hvisited
      rw [List.map_cons, List.tails, List.map_cons] at hvisited
      have hall := ih rfl rfl hrest (List.cons.inj hvisited).2
      intro g hg
      obtain rfl | hg := List.mem_cons.mp hg
      · exact hf
      · exact hall g hg
    · -- the body of the frame is read as the next request
      have hround : (Connection.round uuid store .ready).run c = _ :=
        round_unknown huuid hf hsplit hevents
      rw [visited, hround] at hvisited
      dsimp only at hvisited
      rw [List.map_cons, List.tails, List.map_cons] at hvisited
      have htail := (List.cons.inj hvisited).2
      obtain ⟨fuel, rfl⟩ := Nat.exists_eq_add_one.mpr (Nat.zero_lt_of_lt hrest)
      have hhead : frames.tails.head? = some frames := by cases frames <;> rfl
      have hnext := congrArg List.head? htail
      rw [visited, List.map_cons, List.head?_cons, List.head?_map, hhead, Option.map_some] at hnext
      have hlen := congrArg List.length (Option.some.inj hnext)
      rw [List.length_append, Frame.body, List.length_append, beBytes_length] at hlen
      omega

/-- A connection on which frames arrive answers each of them, and begins every round at the
beginning of a frame, exactly when all frames have a known version and type. Any other frame is
rejected before its body is read.
SOURCE: connection.rs:153-249, protocol.rs:85-185 -/
theorem stays_synchronised_iff (huuid : uuid.Documented) {frames : List Frame}
    {c : Connection σ} (hunread : c.unread = frames.flatMap Frame.bytes)
    (hevents : c.writeEvents = []) :
    (∃ unread, (Connection.start uuid store []).run c = .ok () ⟨unread,
        c.written ++ (answers uuid store frames c.store).1, [],
        (answers uuid store frames c.store).2⟩) ∧
      (visited uuid store (c.unread.length + 1) c).map Connection.unread =
        frames.tails.map (List.flatMap Frame.bytes) ↔
    ∀ f ∈ frames, f.version = 0 ∧ f.requestType ≤ 2 := by
  constructor
  · rintro ⟨-, hvisited⟩
    exact known_of_visited huuid hunread hevents (Nat.lt_succ_self _) hvisited
  · intro hknown
    refine ⟨?_, visited_known huuid hknown hunread hevents (Nat.lt_succ_self _)⟩
    have hall : c.unread = (frames.flatMap Frame.bytes).take c.unread.length := by
      rw [hunread, List.take_length]
    obtain ⟨n, -, unread, last, -, hrun, hcomplete⟩ :=
      start_answers store huuid hknown [] hall hevents
    obtain ⟨rfl, rfl⟩ := hcomplete (by simp) (by rw [hunread])
    rw [List.take_length, List.append_nil] at hrun
    exact ⟨unread, hrun⟩

end

/-! ## A connection with a put and a get -/

/-- A store that keeps a list of keys with their values. -/
def listStore : Store (List (String × String)) where
  get key s := (.ok (s.lookup key), s)
  put key value s := (.ok (s.lookup key), (key, value) :: s)
  delete key s := (.ok (s.lookup key), s.filter fun e => e.1 ≠ key)

/-- A put of `v` under the key `k`. -/
def putFrame (version : UInt8) : Frame :=
  ⟨List.replicate 16 7, version, 2, 0, [], [107], some [118], [], rfl, by decide, by decide,
    fun _ h => by cases h⟩

/-- A get of the key `k`. -/
def getFrame : Frame :=
  ⟨List.replicate 16 9, 0, 1, 0, [], [107], none, [], rfl, by decide, by decide, fun _ _ => rfl⟩

/-- The bytes that arrive for some frames, on a new connection. -/
def connectionOf (frames : List Frame) : Connection (List (String × String)) :=
  ⟨frames.flatMap Frame.bytes, [], [], []⟩

/-- A put and a get, and a reader that is woken once before the end. -/
theorem start_answers_prefix_put_get :
    ∃ n ≤ [putFrame 0, getFrame].length, ∃ unread last,
      StopsAfter [putFrame 0, getFrame] 90 [.ready, .timedOut] n last ∧
      (Connection.start plainIds listStore [.ready, .timedOut]).run
        (connectionOf [putFrame 0, getFrame]) = .ok () ⟨unread,
          [] ++ (answers plainIds listStore ([putFrame 0, getFrame].take n) []).1 ++ last, [],
          (answers plainIds listStore ([putFrame 0, getFrame].take n) []).2⟩ ∧
      ((∀ wake ∈ [Wake.ready, .timedOut], wake = .ready) →
        ([putFrame 0, getFrame].flatMap Frame.bytes).length ≤ 90 →
          n = [putFrame 0, getFrame].length ∧ last = []) := by
  refine start_answers_prefix plainIds_documented ?_ [.ready, .timedOut]
    (c := connectionOf [putFrame 0, getFrame]) rfl rfl
  simp only [List.forall_mem_cons]
  exact ⟨⟨.put ⟨"k", "v"⟩, by decide⟩, ⟨.get "k", by decide⟩, by simp⟩

/-- A put and a get of the known version. -/
theorem stays_synchronised_iff_put_get :
    (∃ unread, (Connection.start plainIds listStore []).run (connectionOf [putFrame 0, getFrame]) =
      .ok () ⟨unread, [] ++ (answers plainIds listStore [putFrame 0, getFrame] []).1, [],
        (answers plainIds listStore [putFrame 0, getFrame] []).2⟩) ∧
      (visited plainIds listStore ((connectionOf [putFrame 0, getFrame]).unread.length + 1)
          (connectionOf [putFrame 0, getFrame])).map Connection.unread =
        [putFrame 0, getFrame].tails.map (List.flatMap Frame.bytes) ↔
    ∀ f ∈ [putFrame 0, getFrame], f.version = 0 ∧ f.requestType ≤ 2 :=
  stays_synchronised_iff plainIds_documented rfl rfl

/-- A put of a newer version, and a get that is never answered. -/
theorem newer_version_desynchronises :
    ¬((∃ unread, (Connection.start plainIds listStore []).run
          (connectionOf [putFrame 1, getFrame]) =
        .ok () ⟨unread, [] ++ (answers plainIds listStore [putFrame 1, getFrame] []).1, [],
          (answers plainIds listStore [putFrame 1, getFrame] []).2⟩) ∧
      (visited plainIds listStore ((connectionOf [putFrame 1, getFrame]).unread.length + 1)
          (connectionOf [putFrame 1, getFrame])).map Connection.unread =
        [putFrame 1, getFrame].tails.map (List.flatMap Frame.bytes)) := by
  rintro ⟨-, hvisited⟩
  have hknown := known_of_visited plainIds_documented rfl rfl (Nat.lt_succ_self _) hvisited
  have hversion : (1 : UInt8) = 0 := (hknown (putFrame 1) (List.mem_cons_self ..)).1
  cases hversion

end Rkvs.Analysis

import Rkvs.Analysis.RunningEngine
import Rkvs.Interface.RunningServer

/-!
# Clients see one map

A step of a connection is a round of its loop, so its bytes are those of a conversation. Operations of
one client are invoked one after the other, and each of them has its own number, so an order that
explains the history of the engine has the operations of every client in the order of its requests.
-/

set_option autoImplicit false

namespace Rkvs.Analysis

open Rkvs.Library Rkvs.Model Rkvs.Interface History

variable {Uuid : Type} {uuid : UuidCrate Uuid} {crc : Bytes → UInt32}

/-! ## What a client has heard -/

/-- The requests in the bytes of a client, and the bytes sent to it. -/
structure Heard (uuid : UuidCrate Uuid) (client c : Connection Unit) (phase : ConnectionPhase)
    (exchanges : List (Exchanged Uuid)) : Prop where
  failures : ∀ asked, .failed asked .notFound ∉ exchanges
  bytes : ∃ tail, (phase ≠ .closed → tail = c.unread) ∧
    (requestFraming uuid).Reads client.unread (exchanges.map Exchanged.received) tail ∧
    (client.writeEvents = [] → ∃ closing, c.writeEvents = [] ∧ (phase ≠ .closed → closing = []) ∧
      (closing = [] ∨ closing = [.createCloseNotification uuid]) ∧
      c.written = client.written ++ stream uuid (exchanges.map Exchanged.response ++ closing) ∧
      (phase = .closed → closing = [] → (requestFraming uuid).Ends tail))

section
variable {client c c' : Connection Unit} {phase phase' : ConnectionPhase}
  {exchanges : List (Exchanged Uuid)} {store : Model.Store Unit} {status : KeepAliveStatus}

/-- INTERNAL: a connection that is not closed goes on. -/
theorem Heard.goes (h : Heard uuid client c phase exchanges) (hopen : phase ≠ .closed)
    (hopen' : phase' ≠ .closed) : Heard uuid client c phase' exchanges := by
  obtain ⟨hfailures, tail, htail, hreads, hwritten⟩ := h
  refine ⟨hfailures, tail, fun _ => htail hopen, hreads, fun hevents => ?_⟩
  obtain ⟨closing, hnone, hclosing, hcloses, hbytes, -⟩ := hwritten hevents
  exact ⟨closing, hnone, fun _ => hclosing hopen, hcloses, hbytes, fun hclosed => absurd hclosed hopen'⟩

/-- INTERNAL: a connection is closed where there is no request. -/
theorem Heard.closed (h : Heard uuid client c phase exchanges) (hopen : phase ≠ .closed)
    (hends : (requestFraming uuid).Ends c.unread) (hwritten : c'.written = c.written)
    (hevents : c'.writeEvents = c.writeEvents) : Heard uuid client c' .closed exchanges := by
  obtain ⟨hfailures, tail, htail, hreads, hsent⟩ := h
  obtain rfl := htail hopen
  refine ⟨hfailures, c.unread, fun hnot => absurd rfl hnot, hreads, fun hnone => ?_⟩
  obtain ⟨closing, hnone', -, hcloses, hbytes, -⟩ := hsent hnone
  exact ⟨closing, hevents.trans hnone', fun hnot => absurd rfl hnot, hcloses, hwritten.trans hbytes,
    fun _ _ => hends⟩

/-- INTERNAL: a round answers the next request. -/
theorem Heard.exchange (h : Heard uuid client c phase exchanges) (hopen : phase ≠ .closed)
    {x : Exchanged Uuid} {n : ℕ} (hscan : scanRequest uuid c.unread = .item x.received n)
    (hreply : (reply store c.store x.received).1 = x.response)
    (hfailure : ∀ asked, x ≠ .failed asked .notFound)
    (hround : (Connection.round uuid store .ready).run c = .ok status c') :
    Heard uuid client c' (.after status) (exchanges ++ [x]) := by
  obtain ⟨hfailures, tail, htail, hreads, hwritten⟩ := h
  obtain rfl := htail hopen
  obtain ⟨status', written, events, hsend, -, hsent⟩ := @sendReply_returns Uuid Unit uuid x.response
    { c with unread := c.unread.drop n, store := (reply store c.store x.received).2 }
  rw [round_item hscan, hreply, hsend] at hround
  cases hround
  refine ⟨fun asked hmem => ?_, c.unread.drop n, fun _ => rfl, ?_, fun hnone => ?_⟩
  · obtain hmem | hmem := List.mem_append.mp hmem
    · exact hfailures asked hmem
    · exact hfailure asked (List.mem_singleton.mp hmem).symm
  · rw [List.map_append]
    exact hreads.trans (.next hscan (.done _))
  · obtain ⟨closing, hevents, hclosing, -, hbefore, -⟩ := hwritten hnone
    obtain ⟨rfl, hafter, hnone'⟩ := hsent hevents
    obtain rfl := hclosing hopen
    refine ⟨[], hnone', fun _ => rfl, Or.inl rfl, ?_, nofun⟩
    show written = _
    rw [hafter, List.append_nil, List.map_append, stream_append]
    change c.written ++ _ = _
    rw [hbefore, List.append_nil, List.append_assoc]
    exact congrArg _ (congrArg _ (List.flatMap_singleton _ _).symm)

/-- INTERNAL: a round that does not ask the store. -/
theorem Heard.round (h : Heard uuid client c phase exchanges) (hopen : phase ≠ .closed) {wake : Wake}
    (hunasked : wake = .ready → ∀ asked n, scanRequest uuid c.unread ≠ .item (.ok asked) n)
    (hround : (Connection.round uuid store wake).run c = .ok status c') :
    ∃ more, Heard uuid client c' (.after status) (exchanges ++ more) ∧
      more.filterMap Exchanged.performed = [] := by
  by_cases hwake : wake = .ready
  swap
  · rw [round_close hwake] at hround
    cases hround
    refine ⟨[], ?_, rfl⟩
    rw [List.append_nil]
    exact h.goes hopen nofun
  subst hwake
  by_cases hends : (requestFraming uuid).Ends c.unread
  · obtain ⟨unread, hsilent | ⟨-, hpanic⟩⟩ := @round_ends Uuid Unit uuid store c hends
    · rw [hsilent] at hround
      cases hround
      refine ⟨[], ?_, rfl⟩
      rw [List.append_nil]
      exact h.closed hopen hends rfl rfl
    · rw [hpanic] at hround
      cases hround
  · obtain ⟨received, n, hscan⟩ := Framing.exists_item hends
    cases received with
    | ok asked => exact absurd hscan (hunasked rfl asked n)
    | error e => exact ⟨[.rejected e], h.exchange hopen hscan rfl nofun hround, rfl⟩

/-- INTERNAL: a round that panics has only read. -/
theorem Heard.panic (h : Heard uuid client c phase exchanges) (hopen : phase ≠ .closed)
    (hround : (Connection.round uuid store .ready).run c = .error .panic c') :
    Heard uuid client c' .closed exchanges := by
  by_cases hends : (requestFraming uuid).Ends c.unread
  · obtain ⟨unread, hsilent | ⟨-, hpanic⟩⟩ := @round_ends Uuid Unit uuid store c hends
    · rw [hsilent] at hround
      cases hround
    · rw [hpanic] at hround
      cases hround
      exact h.closed hopen hends rfl rfl
  · obtain ⟨received, n, hscan⟩ := Framing.exists_item hends
    obtain ⟨status, written, events, hsend, -⟩ := @sendReply_returns Uuid Unit uuid
      (reply store c.store received).1
      { c with unread := c.unread.drop n, store := (reply store c.store received).2 }
    rw [round_item hscan, hsend] at hround
    cases hround

/-- INTERNAL: the close notification comes last. -/
theorem Heard.notify (h : Heard uuid client c phase exchanges) (hopen : phase ≠ .closed)
    (hsent : (Connection.sendCloseNotification uuid).run c = .ok () c') :
    Heard uuid client c' .closed exchanges := by
  obtain ⟨hfailures, tail, -, hreads, hwritten⟩ := h
  obtain ⟨sent, written, events, hwrite, hnone⟩ := @writeAll_returns Unit
    ((TcpResponse.createCloseNotification uuid).toBytes uuid) c
  have hrun : (Connection.sendCloseNotification uuid).run c =
      .ok () { c with written := written, writeEvents := events } := run_bind_ok hwrite
  rw [hrun] at hsent
  cases hsent
  refine ⟨hfailures, tail, fun hnot => absurd rfl hnot, hreads, fun hevents => ?_⟩
  obtain ⟨closing, hempty, hclosing, -, hbefore, -⟩ := hwritten hevents
  obtain rfl := hclosing hopen
  obtain ⟨-, hafter, hempty'⟩ := hnone hempty
  refine ⟨[.createCloseNotification uuid], hempty', fun hnot => absurd rfl hnot, Or.inr rfl, ?_, nofun⟩
  show written = _
  rw [hafter, hbefore, List.append_nil, stream_append, List.append_assoc]
  exact congrArg _ (congrArg _ (List.flatMap_singleton _ _).symm)

end

/-! ## What the engine has done for a client -/

/-- The events of the engine. -/
abbrev EngineHistory := List (Event Command (Option String))

/-- The operations that have been done for a client, one after the other. Each has an owner. -/
structure Performs (owner : ℕ → ℕ) (k : ℕ) (h : EngineHistory)
    (operations : List (History.Operation Command (Option String))) : Prop where
  done : ∀ x ∈ operations, owner x.id = k ∧ .invoke x.id x.op ∈ h ∧ .respond x.id x.res ∈ h
  ordered : operations.Pairwise fun x y => x.id ≠ y.id ∧ Precedes h x.id y.id

/-- A connection waits for the operation that the bytes ask for next. -/
structure Waits (uuid : UuidCrate Uuid) (owner : ℕ → ℕ) (k : ℕ) (c : Connection Unit)
    (h : EngineHistory) (operations : List (History.Operation Command (Option String))) (id : ℕ) :
    Prop where
  asked : ∃ asked n, scanRequest uuid c.unread = .item (.ok asked) n ∧
    .invoke id (commandOf asked.operation) ∈ h
  owned : owner id = k
  next : ∀ x ∈ operations, x.id ≠ id ∧ Precedes h x.id id

section
variable {owner : ℕ → ℕ} {k id : ℕ} {c : Connection Unit} {h : EngineHistory}
  {operations : List (History.Operation Command (Option String))}

/-- INTERNAL: what a connection performs stays performed. -/
theorem Performs.append (hall : Performs owner k h operations) (more : EngineHistory) :
    Performs owner k (h ++ more) operations := by
  refine ⟨fun x hx => ?_, hall.ordered.imp fun hp => ⟨hp.1, hp.2.append more⟩⟩
  obtain ⟨howner, hinvoked, hresponded⟩ := hall.done x hx
  exact ⟨howner, List.mem_append_left _ hinvoked, List.mem_append_left _ hresponded⟩

/-- INTERNAL: a connection keeps waiting. -/
theorem Waits.append (hall : Waits uuid owner k c h operations id) (more : EngineHistory) :
    Waits uuid owner k c (h ++ more) operations id := by
  obtain ⟨⟨asked, n, hscan, hinvoked⟩, howned, hnext⟩ := hall
  refine ⟨⟨asked, n, hscan, List.mem_append_left _ hinvoked⟩, howned, fun x hx => ?_⟩
  exact ⟨(hnext x hx).1, (hnext x hx).2.append more⟩

/-- INTERNAL: a new operation gets its owner. -/
theorem Performs.owned (hall : Performs owner k h operations) {new : ℕ} (hfresh : ¬Invoked h new)
    (k' : ℕ) : Performs (Function.update owner new k') k h operations := by
  refine ⟨fun x hx => ?_, hall.ordered⟩
  obtain ⟨howner, hinvoked, hresponded⟩ := hall.done x hx
  have hne : x.id ≠ new := fun heq => hfresh ⟨x.op, heq ▸ hinvoked⟩
  rw [Function.update_of_ne hne]
  exact ⟨howner, hinvoked, hresponded⟩

/-- INTERNAL: also when another connection begins an operation. -/
theorem Waits.owned_new (hall : Waits uuid owner k c h operations id) {new : ℕ}
    (hfresh : ¬Invoked h new) (k' : ℕ) :
    Waits uuid (Function.update owner new k') k c h operations id := by
  obtain ⟨⟨asked, n, hscan, hinvoked⟩, howned, hnext⟩ := hall
  have hne : id ≠ new := fun heq => hfresh ⟨_, heq ▸ hinvoked⟩
  refine ⟨⟨asked, n, hscan, hinvoked⟩, ?_, hnext⟩
  rw [Function.update_of_ne hne]
  exact howned

/-- INTERNAL: the next operation is invoked when the others have returned. -/
theorem Performs.ask (hall : Performs owner k h operations) {new n : ℕ} {asked : Asked Uuid}
    (hfresh : ¬Invoked h new) (hscan : scanRequest uuid c.unread = .item (.ok asked) n) :
    Waits uuid (Function.update owner new k) k c (h ++ [.invoke new (commandOf asked.operation)])
      operations new := by
  refine ⟨⟨asked, n, hscan, List.mem_append_right _ List.mem_cons_self⟩, Function.update_self ..,
    fun x hx => ?_⟩
  obtain ⟨-, hinvoked, hresponded⟩ := hall.done x hx
  exact ⟨fun heq => hfresh ⟨x.op, heq ▸ hinvoked⟩,
    precedes_snoc_invoke.mpr (Or.inr ⟨⟨x.res, hresponded⟩, rfl⟩)⟩

/-- INTERNAL: it has returned. -/
theorem Performs.returned (hall : Performs owner k h operations)
    (hwaits : Waits uuid owner k c h operations id) {command : Command} {value : Option String}
    (hinvoked : .invoke id command ∈ h) (hresponded : .respond id value ∈ h) :
    Performs owner k h (operations ++ [⟨id, command, value⟩]) := by
  refine ⟨fun x hx => ?_, ?_⟩
  · obtain hx | hx := List.mem_append.mp hx
    · exact hall.done x hx
    · rw [List.mem_singleton.mp hx]
      exact ⟨hwaits.owned, hinvoked, hresponded⟩
  · refine List.pairwise_append.mpr ⟨hall.ordered, List.pairwise_singleton .., fun x hx y hy => ?_⟩
    rw [List.mem_singleton.mp hy]
    exact hwaits.next x hx

end

/-! ## Steps -/

/-- What holds of the conversation of a client. -/
structure Talks (uuid : UuidCrate Uuid) (owner : ℕ → ℕ) (k : ℕ) (client c : Connection Unit)
    (phase : ConnectionPhase) (h : EngineHistory) (exchanges : List (Exchanged Uuid)) : Prop where
  heard : Heard uuid client c phase exchanges
  performs : Performs owner k h (exchanges.filterMap Exchanged.performed)
  waits : ∀ id, phase = .waiting id →
    Waits uuid owner k c h (exchanges.filterMap Exchanged.performed) id

/-- What holds in every state of a server. -/
structure ServerSound (crc : Bytes → UInt32) (s : SegmentSize) (uuid : UuidCrate Uuid)
    (base : List SsTableEntry) (clients : ℕ → Connection Unit) (st : RunningServer) : Prop where
  engine : RunningSound crc s base st.engine
  once : InvokedOnce st.engine.history
  talks : ∃ (owner : ℕ → ℕ) (exchanges : ℕ → List (Exchanged Uuid)), ∀ k, Talks uuid owner k
    (clients k) (st.connections k) (st.phases k) st.engine.history (exchanges k)

section
variable {s : SegmentSize} {base : List SsTableEntry} {clients : ℕ → Connection Unit}
  {st st' : RunningServer}

/-- INTERNAL: the history of the engine gets longer by the invocations of clients, and by responses.
SOURCE: storage_engine.rs:75-121, 161-190 -/
theorem history_step {en en' : RunningEngine} {a : RunningEngine.Action}
    (h : RunningEngine.Step crc en a en') :
    (∃ id command, a = .invoke id command ∧ en.operations id = .absent ∧
      en'.history = en.history ++ [.invoke id command]) ∨
    (∃ id value, en'.history = en.history ++ [.respond id value]) ∨ en'.history = en.history := by
  cases h with
  | invoke fresh opened => exact Or.inl ⟨_, _, rfl, fresh, rfl⟩
  | respond answered => exact Or.inr (Or.inl ⟨_, _, rfl⟩)
  | _ => exact Or.inr (Or.inr rfl)

/-- INTERNAL: an operation that is absent has not been invoked. -/
theorem RunningSound.fresh {en : RunningEngine} (h : RunningSound crc s base en) {id : ℕ}
    (habsent : en.operations id = .absent) : ¬Invoked en.history id := by
  obtain ⟨t, flushed, rfl, -, htraced⟩ := h
  have hphase := htraced.phases id
  rw [habsent] at hphase
  exact hphase

/-- INTERNAL: a longer history. -/
theorem Talks.append {owner : ℕ → ℕ} {k : ℕ} {client c : Connection Unit} {phase : ConnectionPhase}
    {h : EngineHistory} {exchanges : List (Exchanged Uuid)}
    (hall : Talks uuid owner k client c phase h exchanges) (more : EngineHistory) :
    Talks uuid owner k client c phase (h ++ more) exchanges :=
  ⟨hall.heard, hall.performs.append more, fun id hwaiting => (hall.waits id hwaiting).append more⟩

/-- INTERNAL: a step of one connection leaves the others as they are. -/
theorem talks_update {owner : ℕ → ℕ} {connections : ℕ → Connection Unit}
    {phases : ℕ → ConnectionPhase} {h : EngineHistory} {exchanges : ℕ → List (Exchanged Uuid)}
    (hall : ∀ k, Talks uuid owner k (clients k) (connections k) (phases k) h (exchanges k)) {k : ℕ}
    {c : Connection Unit} {phase : ConnectionPhase} {exchanged : List (Exchanged Uuid)}
    (htalks : Talks uuid owner k (clients k) c phase h exchanged) (j : ℕ) :
    Talks uuid owner j (clients j) (Function.update connections k c j)
      (Function.update phases k phase j) h (Function.update exchanges k exchanged j) := by
  by_cases heq : j = k
  · subst heq
    rw [Function.update_self, Function.update_self, Function.update_self]
    exact htalks
  · rw [Function.update_of_ne heq, Function.update_of_ne heq, Function.update_of_ne heq]
    exact hall j

/-- INTERNAL: a step of the engine without its clients.
SOURCE: storage_engine.rs:161-190 -/
theorem ServerSound.inside (h : ServerSound crc s uuid base clients st) {a : RunningEngine.Action}
    {engine : RunningEngine} (hstep : RunningEngine.Step crc st.engine a engine)
    (hinside : ∀ id command, a ≠ .invoke id command) (hclean : st.engine.Clean a) :
    ServerSound crc s uuid base clients { st with engine := engine } := by
  obtain ⟨hengine, honce, owner, exchanges, htalks⟩ := h
  have hnext := running_step hengine hclean hstep
  obtain ⟨id, command, rfl, -⟩ | ⟨id, value, hhistory⟩ | hhistory := history_step hstep
  · exact absurd rfl (hinside id command)
  · refine ⟨hnext, ?_, owner, exchanges, fun k => ?_⟩
    · show InvokedOnce engine.history
      rw [hhistory]
      exact honce.respond id value
    · show Talks uuid owner k (clients k) (st.connections k) (st.phases k) engine.history (exchanges k)
      rw [hhistory]
      exact (htalks k).append _
  · refine ⟨hnext, ?_, owner, exchanges, fun k => ?_⟩
    · show InvokedOnce engine.history
      rw [hhistory]
      exact honce
    · show Talks uuid owner k (clients k) (st.connections k) (st.phases k) engine.history (exchanges k)
      rw [hhistory]
      exact htalks k

/-- INTERNAL: a connection hands a request to the engine.
SOURCE: connection.rs:104-128; storage_engine.rs:75-121 -/
theorem ServerSound.ask (h : ServerSound crc s uuid base clients st) {k id n : ℕ}
    {asked : Asked Uuid} {engine : RunningEngine} (hreading : st.phases k = .reading)
    (hscan : scanRequest uuid (st.connections k).unread = .item (.ok asked) n)
    (hstep : RunningEngine.Step crc st.engine (.invoke id (commandOf asked.operation)) engine)
    (hclean : st.engine.Clean (.invoke id (commandOf asked.operation))) :
    ServerSound crc s uuid base clients
      { st with engine := engine, phases := Function.update st.phases k (.waiting id) } := by
  obtain ⟨hengine, honce, owner, exchanges, htalks⟩ := h
  have hnext := running_step hengine hclean hstep
  cases hstep with
  | invoke fresh opened =>
    have hfresh := hengine.fresh fresh
    have howned : ∀ j, Talks uuid (Function.update owner id k) j (clients j) (st.connections j)
        (st.phases j) (st.engine.history ++ [.invoke id (commandOf asked.operation)])
        (exchanges j) := by
      intro j
      refine Talks.append ⟨(htalks j).heard, (htalks j).performs.owned hfresh k, ?_⟩ _
      exact fun id' hwaiting => ((htalks j).waits id' hwaiting).owned_new hfresh k
    have hheard : Heard uuid (clients k) (st.connections k) (.waiting id) (exchanges k) :=
      (htalks k).heard.goes (by rw [hreading]; nofun) nofun
    have hwaits := (htalks k).performs.ask hfresh hscan
    have hupdated := talks_update howned ⟨hheard, (howned k).performs, fun id' hwaiting => by
      cases hwaiting
      exact hwaits⟩
    refine ⟨hnext, honce.invoke hfresh _, Function.update owner id k, exchanges, fun j => ?_⟩
    have hj := hupdated j
    rwa [Function.update_eq_self, Function.update_eq_self] at hj

/-- INTERNAL: a step of a connection alone. -/
theorem ServerSound.went (h : ServerSound crc s uuid base clients st) {k : ℕ} {c : Connection Unit}
    {phase : ConnectionPhase}
    (htalk : ∀ owner exchanged, Talks uuid owner k (clients k) (st.connections k) (st.phases k)
      st.engine.history exchanged →
      ∃ exchanged', Talks uuid owner k (clients k) c phase st.engine.history exchanged') :
    ServerSound crc s uuid base clients (st.went k c phase) := by
  obtain ⟨hengine, honce, owner, exchanges, htalks⟩ := h
  obtain ⟨exchanged', htalk'⟩ := htalk owner (exchanges k) (htalks k)
  exact ⟨hengine, honce, owner, _, talks_update htalks htalk'⟩

/-- INTERNAL: after a round nobody waits for the engine. -/
theorem after_ne_waiting (status : KeepAliveStatus) (id : ℕ) :
    ConnectionPhase.after status ≠ .waiting id := by
  cases status <;> nofun

/-- INTERNAL: what the store of a round returns.
SOURCE: connection.rs:112-128 -/
theorem perform_returning (op : Model.Operation) (value : Option String) :
    (perform (returning (.ok value)) op ()).1 = storeResultOf op value := by
  cases op with
  | get key => cases value <;> rfl
  | put data => cases value <;> rfl
  | delete key => cases value <;> rfl

/-- INTERNAL: an operation that fails. -/
theorem perform_failing (op : Model.Operation) (e : StorageEngineError) :
    (perform (returning (.error e)) op ()).1 = .error e := by
  cases op <;> rfl

/-- INTERNAL: the engine has done what the connection waits for.
SOURCE: connection.rs:112-171; storage_engine.rs:75-121 -/
theorem Talks.answer {owner : ℕ → ℕ} {k id : ℕ} {client c c' : Connection Unit}
    {engine : RunningEngine} {exchanges : List (Exchanged Uuid)} {result : StoreResult}
    {status : KeepAliveStatus}
    (h : Talks uuid owner k client c (.waiting id) engine.history exchanges)
    (hreturned : engine.Returns id result)
    (hround : (Connection.round uuid (returning result) .ready).run c = .ok status c') :
    ∃ exchanges', Talks uuid owner k client c' (.after status) engine.history exchanges' := by
  obtain ⟨hheard, hperforms, hwaits⟩ := h
  have hwait := hwaits id rfl
  obtain ⟨asked, n, hscan, hinvoked⟩ := hwait.asked
  have hfailed : ∀ e : StorageEngineError, e ≠ .notFound → result = .error e →
      ∃ exchanges', Talks uuid owner k client c' (.after status) engine.history exchanges' := by
    intro e hne hresult
    subst hresult
    have hreply : (reply (returning (.error e)) c.store (.ok asked)).1 =
        (Exchanged.failed asked e).response :=
      congrArg (responseTo asked.correlationId) (perform_failing asked.operation e)
    have hnext := @Heard.exchange Uuid uuid client c c' _ _ _ _ hheard nofun (.failed asked e) n hscan
      hreply (fun asked' heq => hne (by cases heq; rfl)) hround
    refine ⟨_, hnext, ?_, fun id' hwaiting => absurd hwaiting (after_ne_waiting status id')⟩
    rw [List.filterMap_append]
    exact (List.append_nil (exchanges.filterMap Exchanged.performed)).symm ▸ hperforms
  cases hreturned with
  | @value value hresponded =>
    have hreply : (reply (returning (.ok value)) c.store (.ok asked)).1 =
        (Exchanged.returned asked id value).response :=
      congrArg (responseTo asked.correlationId) (perform_returning asked.operation value)
    have hnext := @Heard.exchange Uuid uuid client c c' _ _ _ _ hheard nofun
      (.returned asked id value) n hscan hreply nofun hround
    refine ⟨_, hnext, ?_, fun id' hwaiting => absurd hwaiting (after_ne_waiting status id')⟩
    rw [List.filterMap_append]
    exact hperforms.returned hwait hinvoked hresponded
  | ioError => exact hfailed .ioError nofun rfl
  | shutdown => exact hfailed .shutdown nofun rfl

/-- INTERNAL: every step keeps what holds.
SOURCE: lib.rs:31-41, 65-93; connection.rs:104-248; storage_engine.rs:75-121 -/
theorem server_step {a : RunningServer.Action} (h : ServerSound crc s uuid base clients st)
    (hclean : st.Clean a) (hstep : RunningServer.Step crc uuid st a st') :
    ServerSound crc s uuid base clients st' := by
  cases hstep with
  | engine step inside => exact h.inside step inside hclean
  | ask reading received sent => exact h.ask reading received sent hclean
  | @accept k absent =>
    obtain ⟨hengine, honce, owner, exchanges, htalks⟩ := h
    have hk := htalks k
    rw [absent] at hk
    have hheard : Heard uuid (clients k) (st.connections k) .reading (exchanges k) :=
      hk.heard.goes nofun nofun
    have hupdated := talks_update htalks ⟨hheard, hk.performs, nofun⟩
    refine ⟨hengine, honce, owner, exchanges, fun j => ?_⟩
    have hj := hupdated j
    rwa [Function.update_eq_self, Function.update_eq_self] at hj
  | answer waiting returned went =>
    refine h.went fun owner exchanged htalk => ?_
    rw [waiting] at htalk
    exact htalk.answer returned went
  | round reading unasked went =>
    refine h.went fun owner exchanged htalk => ?_
    rw [reading] at htalk
    obtain ⟨more, hheard, hnone⟩ := htalk.heard.round nofun unasked went
    refine ⟨_, hheard, ?_, fun id hwaiting => absurd hwaiting (after_ne_waiting _ id)⟩
    rw [List.filterMap_append, hnone, List.append_nil]
    exact htalk.performs
  | notify closing went =>
    refine h.went fun owner exchanged htalk => ?_
    rw [closing] at htalk
    exact ⟨exchanged, htalk.heard.notify nofun went, htalk.performs, nofun⟩
  | panic reading went =>
    refine h.went fun owner exchanged htalk => ?_
    rw [reading] at htalk
    exact ⟨exchanged, htalk.heard.panic nofun went, htalk.performs, nofun⟩

/-- INTERNAL: a run of clean steps keeps what holds. -/
theorem ServerSound.run (h : ServerSound crc s uuid base clients st)
    {steps : List (RunningServer × RunningServer.Action)}
    (hrun : Run (RunningServer.Step crc uuid) st steps st') (hclean : ∀ p ∈ steps, p.1.Clean p.2) :
    ServerSound crc s uuid base clients st' :=
  (hrun.invariant_of_guard h (fun _ _ _ h hguard hstep => server_step h hguard hstep) hclean).2

end

/-! ## Two clients -/

end Rkvs.Analysis

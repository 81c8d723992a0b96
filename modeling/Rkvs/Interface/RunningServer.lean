import Rkvs.Analysis.RequestStream
import Rkvs.Interface.RunningEngine

/-!
# The server and its clients

Every client sends bytes on a connection of its own, and all connections use one engine. When a
connection has received a request for the engine, it waits until the engine has done the operation,
and meanwhile it looks neither at the clock nor at its cancellation. What it does then is the round of
its loop in which the engine returns this result.
-/

set_option autoImplicit false

namespace Rkvs.Interface

open Rkvs.Library Rkvs.Model Rkvs.Analysis History

/-- SOURCE: connection.rs:112-128; storage_engine.rs:75-121 -/
def commandOf : Model.Operation → Command
  | .get key => .get key
  | .put data => .put data.key data.value
  | .delete key => .delete key

/-- What a client is told when the operation has returned this.
SOURCE: connection.rs:112-128 -/
def storeResultOf : Model.Operation → Option String → StoreResult
  | .get _, none => .error .notFound
  | _, value => .ok value

/-- The engine in a round in which it returns this. -/
def returning (result : StoreResult) : Model.Store Unit where
  get _ s := (result, s)
  put _ _ s := (result, s)
  delete _ s := (result, s)

/-- What a call to the engine returns for an operation that it has done or given up.
SOURCE: storage_engine.rs:75-121 -/
inductive RunningEngine.Returns (st : RunningEngine) (id : ℕ) : StoreResult → Prop
  | value {value : Option String} (responded : .respond id value ∈ st.history) :
      Returns st id (.ok value)
  | ioError (failed : st.operations id = .failed) : Returns st id (.error .ioError)
  | shutdown (failed : st.operations id = .failed) : Returns st id (.error .shutdown)

/-- Where the task of a connection is: at the head of its loop, waiting for the engine, about to send
the close notification, or gone. -/
inductive ConnectionPhase
  | absent
  | reading
  | waiting (id : ℕ)
  | closing
  | closed

/-- SOURCE: connection.rs:235-247 -/
def ConnectionPhase.after : KeepAliveStatus → ConnectionPhase
  | .keepAlive => .reading
  | .closeNotify => .closing
  | .closeSilent => .closed

/-- The engine and the connections of the clients, which are known by numbers. -/
structure RunningServer where
  engine : RunningEngine
  connections : ℕ → Connection Unit
  phases : ℕ → ConnectionPhase

namespace RunningServer

/-- A connection has made a round. -/
def went (st : RunningServer) (k : ℕ) (c : Connection Unit) (phase : ConnectionPhase) :
    RunningServer :=
  { st with
    connections := Function.update st.connections k c
    phases := Function.update st.phases k phase }

inductive Action
  | engine (a : RunningEngine.Action)
  | accept (k : ℕ)
  | ask (k id : ℕ) (command : Command)
  | answer (k : ℕ)
  | round (k : ℕ) (wake : Wake)
  | notify (k : ℕ)
  | panic (k : ℕ)

section
variable {Uuid : Type} (calculateChecksum : Bytes → UInt32) (uuid : UuidCrate Uuid)

/-- One step of a connection, or of the engine without its clients.
SOURCE: lib.rs:31-41, 65-93; connection.rs:104-248; storage_engine.rs:75-121 -/
inductive Step : RunningServer → Action → RunningServer → Prop
  | engine {st : RunningServer} {a : RunningEngine.Action} {engine : RunningEngine}
      (step : RunningEngine.Step calculateChecksum st.engine a engine)
      (inside : ∀ id command, a ≠ .invoke id command) :
      Step st (.engine a) { st with engine := engine }
  | accept {st : RunningServer} {k : ℕ} (absent : st.phases k = .absent) :
      Step st (.accept k) { st with phases := Function.update st.phases k .reading }
  | ask {st : RunningServer} {k id n : ℕ} {asked : Asked Uuid} {engine : RunningEngine}
      (reading : st.phases k = .reading)
      (received : scanRequest uuid (st.connections k).unread = .item (.ok asked) n)
      (sent : RunningEngine.Step calculateChecksum st.engine
        (.invoke id (commandOf asked.operation)) engine) :
      Step st (.ask k id (commandOf asked.operation))
        { st with engine := engine, phases := Function.update st.phases k (.waiting id) }
  | answer {st : RunningServer} {k id : ℕ} {result : StoreResult} {status : KeepAliveStatus}
      {c : Connection Unit} (waiting : st.phases k = .waiting id)
      (returned : st.engine.Returns id result)
      (went : (Connection.round uuid (returning result) .ready).run (st.connections k) =
        .ok status c) :
      Step st (.answer k) (st.went k c (.after status))
  | round {st : RunningServer} {k : ℕ} {wake : Wake} {result : StoreResult}
      {status : KeepAliveStatus} {c : Connection Unit} (reading : st.phases k = .reading)
      (unasked : wake = .ready → ∀ asked n,
        scanRequest uuid (st.connections k).unread ≠ .item (.ok asked) n)
      (went : (Connection.round uuid (returning result) wake).run (st.connections k) =
        .ok status c) :
      Step st (.round k wake) (st.went k c (.after status))
  | notify {st : RunningServer} {k : ℕ} {c : Connection Unit} (closing : st.phases k = .closing)
      (went : (Connection.sendCloseNotification uuid).run (st.connections k) = .ok () c) :
      Step st (.notify k) (st.went k c .closed)
  | panic {st : RunningServer} {k : ℕ} {result : StoreResult} {c : Connection Unit}
      (reading : st.phases k = .reading)
      (went : (Connection.round uuid (returning result) .ready).run (st.connections k) =
        .error .panic c) :
      Step st (.panic k) (st.went k c .closed)

end

/-- The steps of the engine are clean, and records are short. -/
def Clean (st : RunningServer) : Action → Prop
  | .engine a => st.engine.Clean a
  | .ask _ id command => st.engine.Clean (.invoke id command)
  | _ => True

/-- A step on the way to answers. Nobody is cancelled, and no time runs out. -/
def Action.Serves : Action → Prop
  | .engine a => a.Works
  | .accept _ => False
  | .round _ wake => wake = .ready
  | _ => True

end RunningServer

/-! ## Conversations -/

/-- What becomes of a request: it is rejected, or the engine returns a value or an error for it. -/
inductive Exchanged (Uuid : Type)
  | rejected (e : ParseError Uuid)
  | returned (asked : Asked Uuid) (id : ℕ) (value : Option String)
  | failed (asked : Asked Uuid) (e : StorageEngineError)

namespace Exchanged

section
variable {Uuid : Type}

def received : Exchanged Uuid → Received Uuid
  | .rejected e => .error e
  | .returned asked _ _ => .ok asked
  | .failed asked _ => .ok asked

/-- The operation that has been done. -/
def performed : Exchanged Uuid → Option (History.Operation Command (Option String))
  | .returned asked id value => some ⟨id, commandOf asked.operation, value⟩
  | _ => none

def response : Exchanged Uuid → TcpResponse Uuid
  | .rejected e => .fromTcpParseError e
  | .returned asked _ value => responseTo asked.correlationId (storeResultOf asked.operation value)
  | .failed asked e => .fromInternalError asked.correlationId e

end

end Exchanged

end Rkvs.Interface

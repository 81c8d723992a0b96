import Rkvs.Library.Run
import Rkvs.Model.Server

/-!
# Starting and finishing connections

The steps of the server, of any number of tasks and of the connection manager, and what the map of
the manager should hold when it has seen all messages.
-/

set_option autoImplicit false

namespace Rkvs.Interface

open Rkvs.Library Rkvs.Model

/-- What the parties share, with the ids of the connections for which a start signal was sent. -/
structure Connections where
  server : Server.Phase
  tasks : ℕ → TaskPhase
  channel : Channel
  manager : ConnectionManager.Phase
  cancelled : Bool
  started : List ℕ

namespace Connections

/-- SOURCE: lib.rs:49-65 -/
def new : Connections :=
  ⟨.looping 0, fun _ => .absent, ⟨[], false⟩, .receiving [], false, []⟩

/-- The task of this connection has been spawned and has not finished. -/
def Unfinished (st : Connections) (id : ℕ) : Prop :=
  st.tasks id = .serving ∨ st.tasks id = .returning

/-- All senders are gone: the one of the server and those of the connections. -/
def Disconnected (st : Connections) : Prop :=
  st.server = .ended ∧ ∀ id, st.tasks id ≠ .serving

inductive Action
  | cancel
  | enter
  | leave
  | accept
  | acceptError
  | start
  | join
  | drop (id : ℕ)
  | finish (id : ℕ)
  | receive
  | disconnect
  | awaited
  | joined
  | returned
  deriving DecidableEq

/-- One step of one of the parties. A task that panics drops its connection like one that returns.
SOURCE: lib.rs:31-41, 65-93; connection_manager.rs:20-40; connection.rs:252-261 -/
inductive Step : Connections → Action → Connections → Prop
  | cancel {st : Connections} : Step st .cancel { st with cancelled := true }
  | enter {st : Connections} {n : ℕ} (looping : st.server = .looping n)
      (go : st.cancelled = false) : Step st .enter { st with server := .accepting n }
  | leave {st : Connections} {n : ℕ} (looping : st.server = .looping n)
      (stop : st.cancelled = true) : Step st .leave { st with server := .closing }
  | accept {st : Connections} {n : ℕ} (accepting : st.server = .accepting n) :
      Step st .accept
        { st with server := .starting n, tasks := Function.update st.tasks n .serving }
  | acceptError {st : Connections} {n : ℕ} (accepting : st.server = .accepting n) :
      Step st .acceptError { st with server := .ended }
  | start {st : Connections} {n : ℕ} {channel : Channel} (starting : st.server = .starting n)
      (sent : (send (.startSignal ⟨⟨n⟩, n⟩)).poll st.channel = some channel) :
      Step st .start
        { st with
          server := Server.nextPhase n
          channel := channel
          started := st.started ++ [n] }
  | join {st : Connections} (closing : st.server = .closing) (gone : st.manager = .ended) :
      Step st .join { st with server := .ended }
  | drop {st : Connections} {id : ℕ} (serving : st.tasks id = .serving) :
      Step st (.drop id)
        { st with
          tasks := Function.update st.tasks id .returning
          channel := TcpConnection.drop id st.channel }
  | finish {st : Connections} {id : ℕ} (returning : st.tasks id = .returning) :
      Step st (.finish id) { st with tasks := Function.update st.tasks id .finished }
  | receive {st : Connections} {handles : ConnectionManager.Handles} {data : ConnectionData}
      {rest : List ConnectionData} (receiving : st.manager = .receiving handles)
      (next : st.channel.queued = data :: rest) (go : st.cancelled = false) :
      Step st .receive
        { st with
          channel := { st.channel with queued := rest }
          manager := ConnectionManager.process handles data }
  | stop {st : Connections} {handles : ConnectionManager.Handles}
      {order : List ConnectionHandle} {data : ConnectionData} {rest : List ConnectionData}
      (receiving : st.manager = .receiving handles) (next : st.channel.queued = data :: rest)
      (cancelled : st.cancelled = true) (all : order.Perm (handles.map Prod.snd)) :
      Step st .receive
        { st with channel := { st.channel with queued := rest }, manager := .closing order }
  | disconnect {st : Connections} {handles : ConnectionManager.Handles}
      {order : List ConnectionHandle} (receiving : st.manager = .receiving handles)
      (none : st.channel.queued = []) (gone : st.Disconnected)
      (all : order.Perm (handles.map Prod.snd)) :
      Step st .disconnect { st with manager := .closing order }
  | awaited {st : Connections} {handle : ConnectionHandle} {handles : ConnectionManager.Handles}
      (awaiting : st.manager = .awaiting handle handles)
      (finished : st.tasks handle.taskHandle = .finished) :
      Step st .awaited { st with manager := .receiving handles }
  | joined {st : Connections} {handle : ConnectionHandle} {rest : List ConnectionHandle}
      (closing : st.manager = .closing (handle :: rest))
      (finished : st.tasks handle.taskHandle = .finished) :
      Step st .joined { st with manager := .closing rest }
  | returned {st : Connections} (closing : st.manager = .closing []) :
      Step st .returned
        { st with channel := { st.channel with closed := true }, manager := .ended }

/-- There are no more messages: the map has exactly the started connections whose task has not
finished. -/
def HandlesExact (st : Connections) : Prop :=
  ∀ handles, st.manager.handles? = some handles → st.channel.queued = [] →
    ∀ id, id ∈ handles.map Prod.fst ↔ id ∈ st.started ∧ st.Unfinished id

/-- The step does not finish a started connection, nor start a finished one. -/
def StaysServed : Connections × Action → Prop
  | (st, .finish id) => id ∉ st.started
  | (st, .start) => ∀ n, st.server = .starting n → st.Unfinished n
  | _ => True

end Connections

end Rkvs.Interface

import Mathlib.Logic.Function.Basic
import Rkvs.Model.Machine

/-!
# The server and its connections

`lib.rs` and `tcp/connection_manager.rs`: the loop that accepts connections, the tasks it spawns,
and the connection manager, which keeps the handles of the tasks. They send messages on a channel.
What a connection does with its client is in the model of connections; of its task only the phases
are left.
-/

set_option autoImplicit false

namespace Rkvs.Model

/-- The handle of the task of a connection, which is known by the id of the connection.
SOURCE: connection.rs:42-45 -/
structure ConnectionHandle where
  taskHandle : ℕ
  deriving DecidableEq, Repr

/-- SOURCE: connection.rs:47-50 -/
structure ConnectionHandleData where
  connHandle : ConnectionHandle
  id : ℕ
  deriving DecidableEq, Repr

/-- SOURCE: connection.rs:52-55 -/
inductive ConnectionData
  | startSignal (data : ConnectionHandleData)
  | completionSignal (id : ℕ)
  deriving DecidableEq, Repr

/-! ## The channel -/

/-- An `mpsc` channel: the messages in order, and whether the receiver is gone. -/
structure Channel where
  queued : List ConnectionData
  closed : Bool
  deriving DecidableEq, Repr

/-- SOURCE: lib.rs:54 -/
def Channel.CAPACITY : ℕ := 1000

/-- The future that `Sender::send` returns. -/
structure SendFuture where
  value : ConnectionData
  deriving DecidableEq, Repr

/-- `Sender::send`, which only makes the future. -/
def send (value : ConnectionData) : SendFuture := ⟨value⟩

/-- What a poll of the future that is ready does: the value goes into the channel, or is lost with
the receiver. The future is not ready while the channel is full. -/
def SendFuture.poll (future : SendFuture) (c : Channel) : Option Channel :=
  if c.closed then some c
  else if c.queued.length < Channel.CAPACITY then
    some { c with queued := c.queued ++ [future.value] }
  else none

/-! ## The parties -/

/-- How far the task of a connection has come. -/
inductive TaskPhase
  | absent
  | serving
  | returning
  | finished
  deriving DecidableEq, Repr

/-- The destructor: `let _` drops the future of `send` without a poll of it.
SOURCE: connection.rs:252-261 -/
def TcpConnection.drop (id : ℕ) (c : Channel) : Channel :=
  let _ := send (.completionSignal id)
  c

/-- Where the loop of the server is: at its head, waiting for the next connection, sending the
start signal of the one that it has spawned, waiting for the manager, or gone. -/
inductive Server.Phase
  | looping (lastConnId : ℕ)
  | accepting (lastConnId : ℕ)
  | starting (connId : ℕ)
  | closing
  | ended
  deriving DecidableEq, Repr

/-- The next id, for which the addition may overflow.
SOURCE: lib.rs:87 -/
def Server.nextPhase (lastConnId : ℕ) : Server.Phase :=
  match checkedAdd 64 lastConnId 1 with
  | .ok n => .looping n
  | .error _ => .ended

namespace ConnectionManager

/-- The map of the handles by the ids of the connections. -/
abbrev Handles := List (ℕ × ConnectionHandle)

def Handles.remove (handles : Handles) (id : ℕ) : Handles := handles.filter fun p => p.1 ≠ id

def Handles.insert (handles : Handles) (id : ℕ) (handle : ConnectionHandle) : Handles :=
  handles.remove id ++ [(id, handle)]

/-- Where the manager is: receiving, waiting for the task of a handle that it has removed, waiting
for the tasks of all handles, or gone. -/
inductive Phase
  | receiving (handles : Handles)
  | awaiting (handle : ConnectionHandle) (handles : Handles)
  | closing (handles : List ConnectionHandle)
  | ended
  deriving DecidableEq, Repr

/-- The map, while there is one. -/
def Phase.handles? : Phase → Option Handles
  | .receiving handles => some handles
  | .awaiting _ handles => some handles
  | .closing _ => none
  | .ended => none

/-- What the loop does with a message: after the end of its body, or where it waits.
SOURCE: connection_manager.rs:25-35 -/
def process (handles : Handles) : ConnectionData → Phase
  | .completionSignal id =>
    match handles.lookup id with
    | none => .receiving handles
    | some handle => .awaiting handle (handles.remove id)
  | .startSignal data => .receiving (handles.insert data.id data.connHandle)

end ConnectionManager

end Rkvs.Model

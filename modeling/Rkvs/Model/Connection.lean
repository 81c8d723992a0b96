import Rkvs.Model.Directory
import Rkvs.Model.Protocol

/-!
# Connections

`tcp/connection.rs`: the loop that reads requests from a connection, hands them to the store and
writes the responses. The store is any state that answers; what else runs on it between two calls
is part of its answers. The clock and the cancellation are a list of how the `select!` of each
round ends.
-/

set_option autoImplicit false

namespace Rkvs.Model

open Rkvs.Library

/-- SOURCE: storage_engine.rs:68-73 -/
inductive StorageEngineError
  | ioError
  | notFound
  | shutdown
  deriving DecidableEq, Repr

/-- SOURCE: storage_engine.rs:222-228 -/
def StorageEngineError.toRc : StorageEngineError → UInt8
  | ioError => 1
  | notFound => 2
  | shutdown => 3

/-- SOURCE: protocol.rs:221-227 -/
def TcpResponse.fromInternalError {Uuid : Type} (correlationId : Uuid)
    (error : StorageEngineError) : TcpResponse Uuid :=
  ⟨correlationId, error.toRc, none⟩

/-- What a call to the store returns. -/
abbrev StoreResult := Except StorageEngineError (Option String)

/-- A store with its state.
SOURCE: storage_engine.rs:14-29 -/
structure Store (σ : Type) where
  get : String → σ → StoreResult × σ
  put : String → String → σ → StoreResult × σ
  delete : String → σ → StoreResult × σ

/-- SOURCE: connection.rs:13-16 -/
structure PutData where
  key : String
  value : String
  deriving DecidableEq, Repr

/-- SOURCE: connection.rs:17-21 -/
inductive Operation
  | get (key : String)
  | put (data : PutData)
  | delete (key : String)
  deriving DecidableEq, Repr

/-- SOURCE: connection.rs:23-27 -/
inductive KeepAliveStatus
  | keepAlive
  | closeNotify
  | closeSilent
  deriving DecidableEq, Repr

/-- SOURCE: connection.rs:64-67 -/
inductive CloseMode
  | notify
  | silent
  deriving DecidableEq, Repr

/-- How the `select!` of a round ends: cancelled, timed out while waiting for a header length, or
with what the stream has. -/
inductive Wake
  | cancelled
  | timedOut
  | ready
  deriving DecidableEq, Repr

/-- A connection: the bytes to come until the client closes it, the bytes sent, the outcomes of
the next writes (with none left every write succeeds), and the state of the store. -/
structure Connection (σ : Type) where
  unread : Bytes
  written : Bytes
  writeEvents : List IoEvent
  store : σ

/-- SOURCE: connection.rs:262-273 -/
def Operation.fromRequest {Uuid : Type} (request : TcpRequest Uuid) : Exec Operation :=
  match request.headers.requestType with
  | .delete => .ok (.delete request.payload.key)
  | .get => .ok (.get request.payload.key)
  | .put => do
    let value ← unwrap request.payload.value
    return .put ⟨request.payload.key, value⟩

namespace Connection

section
variable {Uuid σ : Type}

/-- What the connection does with its state. -/
abbrev Action (σ : Type) := EStateM Fault (Connection σ)

/-- Reading from the connection. -/
def onReader {α : Type} (x : Recv Uuid α) : Action σ (Except (TcpError Uuid) α) := fun c =>
  match x.run c.unread with
  | .ok a unread => .ok (.ok a) { c with unread := unread }
  | .error (.error e) unread => .ok (.error e) { c with unread := unread }
  | .error .panic unread => .error .panic { c with unread := unread }

/-- A call to the store. -/
def onStore (x : σ → StoreResult × σ) : Action σ StoreResult := fun c =>
  .ok (x c.store).1 { c with store := (x c.store).2 }

/-- `write_all`, and whether it succeeds. -/
def writeAll (buf : Bytes) : Action σ Bool := fun c =>
  match c.writeEvents with
  | [] => .ok true { c with written := c.written ++ buf }
  | .ok :: events => .ok true { c with written := c.written ++ buf, writeEvents := events }
  | .fail n :: events =>
    .ok false { c with written := c.written ++ buf.dropLast.take n, writeEvents := events }

/-- SOURCE: connection.rs:112-128 -/
def callStorageEngine (store : Store σ) : Operation → Action σ StoreResult
  | .delete key => onStore (store.delete key)
  | .get key => do
    match ← onStore (store.get key) with
    | .ok (some value) => return .ok (some value)
    | .ok none => return .error .notFound
    | .error e => return .error e
  | .put data => onStore (store.put data.key data.value)

variable (uuid : UuidCrate Uuid) (store : Store σ)

/-- SOURCE: connection.rs:104-110 -/
def handleTcpRequest (tcpRequest : TcpRequest Uuid) : Action σ StoreResult := do
  let op ← liftExec (Operation.fromRequest tcpRequest)
  callStorageEngine store op

/-- SOURCE: connection.rs:130-133 -/
def sendResponse (value : Option String) (correlationId : Uuid) : Action σ Unit := do
  let _ ← writeAll ((TcpResponse.fromValue correlationId value).toBytes uuid)

/-- SOURCE: connection.rs:135-142 -/
def sendInternalErrorResponse (error : StorageEngineError) (correlationId : Uuid) :
    Action σ Bool :=
  writeAll ((TcpResponse.fromInternalError correlationId error).toBytes uuid)

/-- SOURCE: connection.rs:144-147 -/
def sendTcpErrorResponse (error : ParseError Uuid) : Action σ Bool :=
  writeAll ((TcpResponse.fromTcpParseError error).toBytes uuid)

/-- SOURCE: connection.rs:149-152 -/
def sendCloseNotification : Action σ Unit := do
  let _ ← writeAll ((TcpResponse.createCloseNotification uuid).toBytes uuid)

/-- SOURCE: connection.rs:173-185 -/
def handleTcpError : TcpError Uuid → Action σ KeepAliveStatus
  | .connection .timedOut => return .closeNotify
  | .connection .ioError => return .closeSilent
  | .connection .wrongMagicBytes => return .closeSilent
  | .parse e => do
    if ← sendTcpErrorResponse uuid e then return .keepAlive else return .closeSilent

/-- SOURCE: connection.rs:154-171 -/
def recvAndHandleTcpRequest (headerLen : ℕ) : Action σ KeepAliveStatus := do
  match ← onReader (recvTcpRequest uuid headerLen) with
  | .ok request =>
    let correlationId := request.headers.correlationId
    match ← handleTcpRequest store request with
    | .ok res => do
      sendResponse uuid res correlationId
      return .keepAlive
    | .error e => do
      if ← sendInternalErrorResponse uuid e correlationId then return .keepAlive
      else return .closeSilent
  | .error e => handleTcpError uuid e

/-- The length of the headers, unless the time runs out before.
SOURCE: connection.rs:69-77 -/
def recvHeaderLen (elapsed : Bool) : Action σ (Except CloseMode ℕ) := do
  if elapsed then return .error .notify
  else
    match ← onReader (readU32 : Recv Unit ℕ) with
    | .ok headerLen => return .ok headerLen
    | .error _ => return .error .silent

/-- One round of the loop.
SOURCE: connection.rs:218-234 -/
def round (wake : Wake) : Action σ KeepAliveStatus :=
  match wake with
  | .cancelled => return .closeNotify
  | .timedOut | .ready => do
    match ← recvHeaderLen (wake = .timedOut) with
    | .ok headerLen => recvAndHandleTcpRequest uuid store headerLen
    | .error .notify => return .closeNotify
    | .error .silent => return .closeSilent

/-- The loop. A round that keeps the connection alive has read at least four bytes, so `fuel` of
more than the bytes to come is never used up.
SOURCE: connection.rs:217-247 -/
def startLoop : ℕ → List Wake → Action σ Unit
  | 0, _ => throw .panic
  | fuel + 1, wakes => do
    match ← round uuid store (wakes.headD .ready) with
    | .closeNotify => sendCloseNotification uuid
    | .closeSilent => return ()
    | .keepAlive => startLoop fuel wakes.tail

/-- SOURCE: connection.rs:211-248 -/
def start (wakes : List Wake) : Action σ Unit := fun c =>
  startLoop uuid store (c.unread.length + 1) wakes c

end

end Connection

end Rkvs.Model

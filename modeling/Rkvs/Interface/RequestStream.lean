import Rkvs.Interface.RequestFrames
import Rkvs.Interface.Responses
import Rkvs.Library.RecordStream

/-!
# The requests in any bytes

Whatever bytes a client sends, they begin with some requests, and each of these is accepted or
rejected, until there is something that ends the connection. A rejected request takes only the bytes
that were read when the error was found.
-/

set_option autoImplicit false

namespace Rkvs.Interface

open Rkvs.Library Rkvs.Model

/-- An operation that a client asks for, with the id for the response. -/
structure Asked (Uuid : Type) where
  correlationId : Uuid
  operation : Operation
  deriving DecidableEq

/-- What a client asks for, or why it is rejected. -/
abbrev Received (Uuid : Type) := Except (ParseError Uuid) (Asked Uuid)

section
variable {Uuid σ : Type} (uuid : UuidCrate Uuid)

/-- What stands at the beginning of the bytes of a client, with the number of bytes read for it.
SOURCE: connection.rs:69-77, 104-108, 154-171, 263-274; protocol.rs:173-185 -/
def scanRequest (bytes : Bytes) : Scan (Received Uuid) Fault :=
  match (readU32 : Recv Unit ℕ).run bytes with
  | .error _ _ => .stop
  | .ok headerLen rest =>
    match (recvTcpRequest uuid headerLen).run rest with
    | .ok request left =>
      match Operation.fromRequest request with
      | .ok op => .item (.ok ⟨request.headers.correlationId, op⟩) (bytes.length - left.length)
      | .error _ => .fail .panic
    | .error (.error (.parse e)) left => .item (.error e) (bytes.length - left.length)
    | .error (.error (.connection _)) _ => .stop
    | .error .panic _ => .fail .panic

/-- The response to a request for which the store returns this. -/
def responseTo (correlationId : Uuid) : StoreResult → TcpResponse Uuid
  | .ok value => .fromValue correlationId value
  | .error e => .fromInternalError correlationId e

/-- The response to what was received, and the store after it. A rejected request does not get to
the store.
SOURCE: connection.rs:104-128, 154-185 -/
def reply (store : Store σ) (s : σ) : Received Uuid → TcpResponse Uuid × σ
  | .error e => (.fromTcpParseError e, s)
  | .ok asked =>
    let (result, s) := perform store asked.operation s
    (responseTo asked.correlationId result, s)

/-- The responses to what was received, and the store after them. -/
def replies (store : Store σ) : List (Received Uuid) → σ → List (TcpResponse Uuid) × σ
  | [], s => ([], s)
  | received :: rest, s =>
    let (response, s) := reply store s received
    let (responses, s) := replies store rest s
    (response :: responses, s)

/-- The response is written. A failure ends the connection unless the response is a success.
SOURCE: connection.rs:130-147, 158-184 -/
def sendReply (response : TcpResponse Uuid) : Connection.Action σ KeepAliveStatus := do
  if (← Connection.writeAll (response.toBytes uuid)) ∨ response.responseCode = 0 then
    return .keepAlive
  else return .closeSilent

end

end Rkvs.Interface

import Rkvs.Model.Connection

/-!
# What a server writes

A connection carries the responses to its requests one after another, and at most one close
notification at its end. A response ends with its value, and nothing in it says how long the value
is: `SameFraming` is what a client would have to know besides the bytes.
-/

set_option autoImplicit false

namespace Rkvs.Interface

open Rkvs.Library Rkvs.Model

variable {Uuid : Type} (uuid : UuidCrate Uuid)

/-- A response to a request.
SOURCE: connection.rs:130-147 -/
inductive Answer : TcpResponse Uuid → Prop
  | value (correlationId : Uuid) (value : Option String) : Answer (.fromValue correlationId value)
  | internalError (correlationId : Uuid) (error : StorageEngineError) :
      Answer (.fromInternalError correlationId error)
  | parseError (error : ParseError Uuid) : Answer (.fromTcpParseError error)

/-- The responses on one connection.
SOURCE: connection.rs:217-247 -/
inductive Responses : List (TcpResponse Uuid) → Prop
  | nil : Responses []
  | closed : Responses [.createCloseNotification uuid]
  | cons {r : TcpResponse Uuid} {rs : List (TcpResponse Uuid)} (answer : Answer r)
      (rest : Responses rs) : Responses (r :: rs)

/-- The bytes of the responses. -/
def stream (rs : List (TcpResponse Uuid)) : Bytes := rs.flatMap (TcpResponse.toBytes uuid)

/-- How long the value of a response is, if it has one. -/
def valueLength (r : TcpResponse Uuid) : Option ℕ := r.payload.map fun value => (asBytes value).length

/-- There are as many responses, and at every place both have no value or both have values of the
same length. -/
def SameFraming (rs rs' : List (TcpResponse Uuid)) : Prop := rs.map valueLength = rs'.map valueLength

end Rkvs.Interface

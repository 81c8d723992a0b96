import Rkvs.Library.BigEndian
import Rkvs.Model.Machine

/-!
# Requests and responses

`tcp/protocol.rs`: the byte format of requests and responses, and the parser that reads a
request from a connection. Of the `uuid` crate the conversions between ids and their bytes are
parameters. A stream is the bytes that are still to be read before it ends or fails.
-/

set_option autoImplicit false

namespace Rkvs.Model

open Rkvs.Library

/-- What the code uses of the `uuid` crate. -/
structure UuidCrate (Uuid : Type) where
  fromBytes : Bytes → Uuid
  asBytes : Uuid → Bytes
  toBytesLe : Uuid → Bytes
  nil : Uuid

/-- The fields of an id of 4, 2 and 2 bytes, each with its bytes in reverse, and the rest. -/
def flipFields (bytes : Bytes) : Bytes :=
  (bytes.take 4).reverse ++ ((bytes.drop 4).take 2).reverse ++ ((bytes.drop 6).take 2).reverse ++
    bytes.drop 8

/-- What the `uuid` crate documents: ids have 16 bytes, `from_bytes` and `as_bytes` use the
big-endian order, and `to_bytes_le` writes the first three fields little-endian. -/
structure UuidCrate.Documented {Uuid : Type} (uuid : UuidCrate Uuid) : Prop where
  asBytes_length : ∀ id, (uuid.asBytes id).length = 16
  asBytes_fromBytes : ∀ bytes : Bytes, bytes.length = 16 →
    uuid.asBytes (uuid.fromBytes bytes) = bytes
  fromBytes_asBytes : ∀ id, uuid.fromBytes (uuid.asBytes id) = id
  toBytesLe_eq : ∀ id, uuid.toBytesLe id = flipFields (uuid.asBytes id)
  asBytes_nil : uuid.asBytes uuid.nil = List.replicate 16 0

/-- SOURCE: protocol.rs:6 -/
def PROTOCOL_VERSION : UInt8 := 0

/-- SOURCE: protocol.rs:7 -/
def MAGIC_BYTES : Bytes := [0x72, 0x6B, 0x76, 0x73]

section
variable {Uuid : Type}

/-- SOURCE: protocol.rs:22-31 -/
inductive ParseError (Uuid : Type)
  | unsupportedVersion (correlationId : Uuid)
  | invalidRequestType (correlationId : Uuid)
  | missingValue (correlationId : Uuid)
  | invalidKey (correlationId : Uuid)
  | invalidValue (correlationId : Uuid)
  | unknownFlags (correlationId : Uuid)
  | malformedPayload (correlationId : Uuid)
  deriving DecidableEq, Repr

/-- SOURCE: protocol.rs:33-38 -/
inductive ConnectionError
  | ioError
  | wrongMagicBytes
  | timedOut
  deriving DecidableEq, Repr

/-- SOURCE: protocol.rs:16-20 -/
inductive TcpError (Uuid : Type)
  | connection (e : ConnectionError)
  | parse (e : ParseError Uuid)
  deriving DecidableEq, Repr

/-- SOURCE: protocol.rs:40-45 -/
inductive RequestType
  | get
  | put
  | delete
  deriving DecidableEq, Repr

/-- SOURCE: protocol.rs:47-53 -/
structure TcpHeaders (Uuid : Type) where
  requestType : RequestType
  correlationId : Uuid
  protocolVersion : UInt8
  flags : UInt16
  deriving DecidableEq, Repr

/-- SOURCE: protocol.rs:55-59 -/
structure Payload where
  key : String
  value : Option String
  deriving DecidableEq, Repr

/-- SOURCE: protocol.rs:61-64 -/
structure TcpRequest (Uuid : Type) where
  headers : TcpHeaders Uuid
  payload : Payload
  deriving DecidableEq, Repr

/-- SOURCE: protocol.rs:66-70 -/
structure TcpResponse (Uuid : Type) where
  correlationId : Uuid
  responseCode : UInt8
  payload : Option String
  deriving DecidableEq, Repr

/-- How the parser can end other than by returning a request. -/
inductive TcpFault (Uuid : Type)
  | error (e : TcpError Uuid)
  | panic
  deriving DecidableEq, Repr

/-- The result of a parser. -/
abbrev TcpExec (Uuid : Type) := Except (TcpFault Uuid)

/-- A parser that reads from a stream. -/
abbrev Recv (Uuid : Type) := EStateM (TcpFault Uuid) Bytes

/-- Indexing and arithmetic inside a parser, which can only panic. -/
def checked {α : Type} : Exec α → TcpExec Uuid α
  | .ok a => .ok a
  | .error _ => .error .panic

/-- A result, inside code that reads from the stream. -/
def liftTcp {α : Type} (x : TcpExec Uuid α) : Recv Uuid α := fun stream =>
  match x with
  | .ok a => .ok a stream
  | .error e => .error e stream

/-- `l[i]`. -/
def index {α : Type} (l : List α) (i : ℕ) : Exec α := unwrap l[i]?

/-- `read_exact`. A stream that ends before is used up. -/
def readExact (n : ℕ) : Recv Uuid Bytes := fun stream =>
  if n ≤ stream.length then .ok (stream.take n) (stream.drop n)
  else .error (.error (.connection .ioError)) []

/-- `read_u32`. -/
def readU32 : Recv Uuid ℕ := beValue <$> readExact 4

/-! ## Reading a request -/

/-- SOURCE: protocol.rs:72-74 -/
def verifyMagicBytes (buf : Bytes) : Bool := buf = MAGIC_BYTES

/-- SOURCE: protocol.rs:76-83 -/
def parseRequestType (n : UInt8) : Option RequestType :=
  if n = 0 then some .delete
  else if n = 1 then some .get
  else if n = 2 then some .put
  else none

/-- SOURCE: protocol.rs:85-107 -/
def parseHeaders (uuid : UuidCrate Uuid) (buf : Bytes) : TcpExec Uuid (TcpHeaders Uuid) := do
  let magic ← checked (slice buf 0 4)
  if verifyMagicBytes magic = false then .error (.error (.connection .wrongMagicBytes))
  else do
    let correlationId := uuid.fromBytes (← checked (slice buf 4 20))
    let version ← checked (index buf 20)
    if version > PROTOCOL_VERSION then
      .error (.error (.parse (.unsupportedVersion correlationId)))
    else do
      match parseRequestType (← checked (index buf 21)) with
      | none => .error (.error (.parse (.invalidRequestType correlationId)))
      | some requestType => do
        let flags := UInt16.ofNat (beValue (← checked (slice buf 22 24)))
        return ⟨requestType, correlationId, version, flags⟩

/-- SOURCE: protocol.rs:109-148 -/
def parsePayload (buf : Bytes) (requestType : RequestType) (correlationId : Uuid) :
    TcpExec Uuid Payload := do
  let payloadLen := buf.length
  let keyLen := beValue (← checked (slice buf 0 4))
  match fromUtf8 (← checked (slice buf 4 (keyLen + 4))) with
  | none => .error (.error (.parse (.invalidKey correlationId)))
  | some key =>
    match requestType with
    | .put => do
      if keyLen ≥ (← checked (checkedSub payloadLen 4)) then
        .error (.error (.parse (.missingValue correlationId)))
      else do
        let valueLen := beValue (← checked (slice buf (keyLen + 4) (keyLen + 8)))
        match fromUtf8 (← checked (slice buf (keyLen + 8) (keyLen + 8 + valueLen))) with
        | none => .error (.error (.parse (.invalidValue correlationId)))
        | some value => return ⟨key, some value⟩
    | .get | .delete => do
      if keyLen < (← checked (checkedSub payloadLen 4)) then
        .error (.error (.parse (.malformedPayload correlationId)))
      else return ⟨key, none⟩

/-- SOURCE: protocol.rs:150-159 -/
def recvHeaders (len : ℕ) : Recv Uuid Bytes := readExact len

/-- SOURCE: protocol.rs:161-171 -/
def recvPayload (len : ℕ) : Recv Uuid Bytes := readExact len

/-- SOURCE: protocol.rs:173-185 -/
def recvTcpRequest (uuid : UuidCrate Uuid) (headerLen : ℕ) : Recv Uuid (TcpRequest Uuid) := do
  let buf ← recvHeaders headerLen
  let headers ← liftTcp (parseHeaders uuid buf)
  let payloadLen ← readU32
  let buf ← recvPayload payloadLen
  let payload ← liftTcp (parsePayload buf headers.requestType headers.correlationId)
  return ⟨headers, payload⟩

/-! ## Writing requests and responses -/

/-- SOURCE: protocol.rs:283-287 -/
def RequestType.toByte : RequestType → UInt8
  | .delete => 0
  | .get => 1
  | .put => 2

/-- SOURCE: protocol.rs:279-290 -/
def TcpHeaders.toBytes (uuid : UuidCrate Uuid) (h : TcpHeaders Uuid) : Bytes :=
  uuid.toBytesLe h.correlationId ++ [h.protocolVersion, h.requestType.toByte] ++
    beBytes 2 h.flags.toNat

/-- SOURCE: protocol.rs:292-294 -/
def TcpHeaders.len (_ : TcpHeaders Uuid) : ℕ := 20

/-- SOURCE: protocol.rs:298-314 -/
def Payload.toBytes (p : Payload) : Bytes :=
  beBytes 4 (asBytes p.key).length ++ asBytes p.key ++
    match p.value with
    | some value => beBytes 4 (asBytes value).length ++ asBytes value
    | none => []

/-- SOURCE: protocol.rs:315-320 -/
def Payload.len (p : Payload) : ℕ :=
  match p.value with
  | some value => 8 + (asBytes p.key).length + (asBytes value).length
  | none => 4 + (asBytes p.key).length

/-- SOURCE: protocol.rs:206-217 -/
def TcpRequest.toBytes (uuid : UuidCrate Uuid) (r : TcpRequest Uuid) : Bytes :=
  let headerLen := r.headers.len + 4
  beBytes 4 headerLen ++ MAGIC_BYTES ++ r.headers.toBytes uuid ++ beBytes 4 r.payload.len ++
    r.payload.toBytes

/-- SOURCE: protocol.rs:345-357 -/
def ParseError.extractCorrelationId : ParseError Uuid → Uuid
  | invalidKey c | invalidRequestType c | invalidValue c | malformedPayload c
  | missingValue c | unknownFlags c | unsupportedVersion c => c

/-- SOURCE: protocol.rs:324-342 -/
def TcpError.toRc : TcpError Uuid → UInt8
  | parse (.invalidKey _) => 4
  | parse (.invalidValue _) => 5
  | parse (.missingValue _) => 6
  | parse (.malformedPayload _) => 7
  | parse (.invalidRequestType _) => 8
  | parse (.unknownFlags _) => 9
  | parse (.unsupportedVersion _) => 10
  | connection .ioError => 255
  | connection .timedOut => 11
  | connection .wrongMagicBytes => 255

namespace TcpResponse

/-- SOURCE: protocol.rs:229-237 -/
def fromTcpParseError (error : ParseError Uuid) : TcpResponse Uuid :=
  ⟨error.extractCorrelationId, (TcpError.parse error).toRc, none⟩

/-- SOURCE: protocol.rs:239-245 -/
def fromValue (correlationId : Uuid) (value : Option String) : TcpResponse Uuid :=
  ⟨correlationId, 0, value⟩

/-- SOURCE: protocol.rs:247-254 -/
def createCloseNotification (uuid : UuidCrate Uuid) : TcpResponse Uuid :=
  ⟨uuid.nil, (TcpError.connection .timedOut : TcpError Uuid).toRc, none⟩

/-- SOURCE: protocol.rs:263-275 -/
def toBytes (uuid : UuidCrate Uuid) (r : TcpResponse Uuid) : Bytes :=
  uuid.asBytes r.correlationId ++ [r.responseCode] ++
    match r.payload with
    | none => []
    | some str => asBytes str

end TcpResponse

end

end Rkvs.Model

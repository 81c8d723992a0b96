import Rkvs.Model.Connection

/-!
# What a client sends

Two views of the bytes on a connection. Any client chooses the length of the headers, of the
payload, of the key and of the value; `RequestInRange` says when these agree with the bytes that
follow. A frame is a request whose lengths agree by construction, and `Frame.meaning` is what it
asks for, or why it is rejected.
-/

set_option autoImplicit false

namespace Rkvs.Interface

open Rkvs.Library Rkvs.Model

/-! ## Ids -/

/-- An id that is its 16 bytes. -/
abbrev PlainId := {bytes : Bytes // bytes.length = 16}

def plainIds : UuidCrate PlainId where
  fromBytes bytes :=
    if h : bytes.length = 16 then ⟨bytes, h⟩ else ⟨List.replicate 16 0, List.length_replicate⟩
  asBytes id := id.val
  toBytesLe id := flipFields id.val
  nil := ⟨List.replicate 16 0, List.length_replicate⟩

theorem plainIds_documented : plainIds.Documented where
  asBytes_length id := id.property
  asBytes_fromBytes bytes h := by
    show (if h : bytes.length = 16 then (⟨bytes, h⟩ : PlainId) else _).val = bytes
    rw [dif_pos h]
  fromBytes_asBytes id := dif_pos id.property
  toBytesLe_eq _ := rfl
  asBytes_nil := rfl

/-- Each of the first three fields of the id, of 4, 2 and 2 bytes, reads the same from both
ends. -/
def PalindromicFields (id : Bytes) : Prop :=
  id[0]? = id[3]? ∧ id[1]? = id[2]? ∧ id[4]? = id[5]? ∧ id[6]? = id[7]?

/-! ## Lengths -/

/-- The headers are long enough for what the parser looks at: all of it for a request of a known
version and type, and less when it stops before. -/
def HeadersInRange (buf : Bytes) : Prop :=
  4 ≤ buf.length ∧ (buf.take 4 = MAGIC_BYTES →
    21 ≤ buf.length ∧ (buf[20]? = some 0 →
      22 ≤ buf.length ∧ (∀ n, buf[21]? = some n → n ≤ 2 → 24 ≤ buf.length)))

/-- The type of a request whose payload is read. -/
def acceptedType (buf : Bytes) : Option RequestType :=
  if buf.take 4 = MAGIC_BYTES ∧ buf[20]? = some 0 then buf[21]?.bind parseRequestType else none

/-- The key lies in the payload, and so does the value of a put that has a key in UTF-8 and
something behind the key. -/
def PayloadInRange (requestType : RequestType) (buf : Bytes) : Prop :=
  let keyLen := beValue (buf.take 4)
  4 + keyLen ≤ buf.length ∧
    (requestType = .put → (fromUtf8 ((buf.drop 4).take keyLen)).isSome → 4 + keyLen < buf.length →
      8 + keyLen ≤ buf.length ∧
      8 + keyLen + beValue ((buf.drop (4 + keyLen)).take 4) ≤ buf.length)

/-- Where the last field of a payload ends, by its lengths. -/
def fieldsEnd (requestType : RequestType) (buf : Bytes) : ℕ :=
  let keyLen := beValue (buf.take 4)
  if requestType = .put then 8 + keyLen + beValue ((buf.drop (4 + keyLen)).take 4) else 4 + keyLen

/-- The key of a payload and the value of a put are in UTF-8. -/
def ReadableFields (requestType : RequestType) (buf : Bytes) : Prop :=
  let keyLen := beValue (buf.take 4)
  (fromUtf8 ((buf.drop 4).take keyLen)).isSome ∧
    (requestType = .put → (fromUtf8 ((buf.drop (8 + keyLen)).take
      (beValue ((buf.drop (4 + keyLen)).take 4)))).isSome)

/-- What the payload with these bytes says for a request of this type: only one payload is encoded
by them, it has a value exactly for a put, and bytes behind the last field are refused. -/
structure OneEncoding {Uuid : Type} (requestType : RequestType) (id : Uuid) (buf : Bytes) :
    Prop where
  encodes : ∀ p, parsePayload buf requestType id = .ok p →
    buf = p.toBytes ∧ (p.value.isSome ↔ requestType = .put)
  refuses : fieldsEnd requestType buf < buf.length →
    ∃ e, parsePayload buf requestType id = .error (.error (.parse e)) ∧
      (ReadableFields requestType buf → e = .malformedPayload id)

/-- The lengths of a request on a stream that has not ended before. -/
def RequestInRange (headerLen : ℕ) (stream : Bytes) : Prop :=
  headerLen ≤ stream.length → HeadersInRange (stream.take headerLen) ∧
    ∀ requestType, acceptedType (stream.take headerLen) = some requestType →
      let rest := stream.drop headerLen
      let payloadLen := beValue (rest.take 4)
      4 + payloadLen ≤ rest.length → PayloadInRange requestType ((rest.drop 4).take payloadLen)

/-! ## Frames -/

/-- A request as a client sends it. Headers may be longer than what is known of them, and
something may follow the value. -/
structure Frame where
  id : Bytes
  version : UInt8
  requestType : UInt8
  flags : UInt16
  options : Bytes
  key : Bytes
  value : Option Bytes
  extra : Bytes
  id_length : id.length = 16
  options_length : 24 + options.length < 2 ^ 32
  payload_length :
    4 + key.length + (value.elim 0 fun value => 4 + value.length) + extra.length < 2 ^ 32
  /-- A put without a value ends behind the key. -/
  missing_value : requestType = 2 → value = none → extra = []

namespace Frame

/-- The headers, without their length. -/
def headers (f : Frame) : Bytes :=
  MAGIC_BYTES ++ f.id ++ [f.version, f.requestType] ++ beBytes 2 f.flags.toNat ++ f.options

/-- The value with its length. -/
def valueBytes (f : Frame) : Bytes :=
  match f.value with
  | none => []
  | some value => beBytes 4 value.length ++ value

/-- The payload, without its length. -/
def payload (f : Frame) : Bytes := beBytes 4 f.key.length ++ f.key ++ f.valueBytes ++ f.extra

/-- The payload with its length. -/
def body (f : Frame) : Bytes := beBytes 4 f.payload.length ++ f.payload

def bytes (f : Frame) : Bytes := beBytes 4 f.headers.length ++ f.headers ++ f.body

/-- The version and the type are known, so that the payload is read. -/
def Known (f : Frame) : Prop := f.version = 0 ∧ f.requestType ≤ 2

section
variable {Uuid : Type} (uuid : UuidCrate Uuid)

/-- What the payload of a request of a known type asks for. -/
def operation (f : Frame) (requestType : RequestType) : Except (ParseError Uuid) Operation :=
  match fromUtf8 f.key with
  | none => .error (.invalidKey (uuid.fromBytes f.id))
  | some key =>
    match requestType with
    | .put =>
      match f.value with
      | none => .error (.missingValue (uuid.fromBytes f.id))
      | some value =>
        match fromUtf8 value with
        | none => .error (.invalidValue (uuid.fromBytes f.id))
        | some value => .ok (.put ⟨key, value⟩)
    | .get =>
      if f.valueBytes ++ f.extra = [] then .ok (.get key)
      else .error (.malformedPayload (uuid.fromBytes f.id))
    | .delete =>
      if f.valueBytes ++ f.extra = [] then .ok (.delete key)
      else .error (.malformedPayload (uuid.fromBytes f.id))

/-- What a frame asks for, or why it is rejected. -/
def meaning (f : Frame) : Except (ParseError Uuid) Operation :=
  if f.version = 0 then
    match parseRequestType f.requestType with
    | none => .error (.invalidRequestType (uuid.fromBytes f.id))
    | some requestType => f.operation uuid requestType
  else .error (.unsupportedVersion (uuid.fromBytes f.id))

/-- The request of a frame that asks for an operation. -/
def request (f : Frame) : Operation → TcpRequest Uuid
  | .get key => ⟨⟨.get, uuid.fromBytes f.id, 0, f.flags⟩, ⟨key, none⟩⟩
  | .put data => ⟨⟨.put, uuid.fromBytes f.id, 0, f.flags⟩, ⟨data.key, some data.value⟩⟩
  | .delete key => ⟨⟨.delete, uuid.fromBytes f.id, 0, f.flags⟩, ⟨key, none⟩⟩

end

end Frame

/-! ## Answers -/

/-- What the store makes of an operation; a get of an absent key is an error. -/
def perform {σ : Type} (store : Store σ) : Operation → σ → StoreResult × σ
  | .get key, s =>
    match store.get key s with
    | (.ok none, s) => (.error .notFound, s)
    | answer => answer
  | .put data, s => store.put data.key data.value s
  | .delete key, s => store.delete key s

/-- The bytes of the response to a frame with this id. -/
def responseBytes (id : Bytes) : StoreResult → Bytes
  | .ok none => id ++ [0]
  | .ok (some value) => id ++ [0] ++ asBytes value
  | .error e => id ++ [e.toRc]

/-- The response to a frame, and the store after it. -/
def answer {Uuid σ : Type} (uuid : UuidCrate Uuid) (store : Store σ) (f : Frame) (s : σ) :
    Bytes × σ :=
  match f.meaning uuid with
  | .ok op => (responseBytes f.id (perform store op s).1, (perform store op s).2)
  | .error e => (f.id ++ [(TcpError.parse e).toRc], s)

/-- The responses to frames one after the other, and the store after them. -/
def answers {Uuid σ : Type} (uuid : UuidCrate Uuid) (store : Store σ) : List Frame → σ → Bytes × σ
  | [], s => ([], s)
  | f :: frames, s =>
    let (response, s) := answer uuid store f s
    let (responses, s) := answers uuid store frames s
    (response ++ responses, s)

/-- The notification that the connection is closed. -/
def closeBytes : Bytes := List.replicate 16 0 ++ [11]

/-- Why a connection on which the first `k` bytes of the frames arrive has answered `n` of them,
and what it has written last: it was cancelled or timed out in the next round, or the next frame
has not arrived as a whole. -/
inductive StopsAfter (frames : List Frame) (k : ℕ) (wakes : List Wake) (n : ℕ) : Bytes → Prop
  | woken {wake : Wake} (round : wakes[n]? = some wake) (wake_ne : wake ≠ .ready) :
      StopsAfter frames k wakes n closeBytes
  | ended (round : wakes[n]?.getD .ready = .ready)
      (short : n < frames.length → k < ((frames.take (n + 1)).flatMap Frame.bytes).length) :
      StopsAfter frames k wakes n []

/-- The connection at the beginning of each of its rounds, if none is cancelled or times out. -/
def visited {Uuid σ : Type} (uuid : UuidCrate Uuid) (store : Store σ) :
    ℕ → Connection σ → List (Connection σ)
  | 0, _ => []
  | fuel + 1, c =>
    c :: match (Connection.round uuid store .ready).run c with
      | .ok .keepAlive c => visited uuid store fuel c
      | _ => []

end Rkvs.Interface

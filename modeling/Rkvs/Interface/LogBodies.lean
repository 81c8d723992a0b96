import Rkvs.Model.WalSegment

/-!
# The layout of log records

A file as a string of bytes: records with a body each, and whatever comes behind them. A body has an
operation, a key, perhaps a value, and the bytes that are left for the sequence number.
-/

set_option autoImplicit false

namespace Rkvs.Interface

open Rkvs.Library Rkvs.Model

/-- What stands in front of the sequence number. -/
def bodyFront (op : UInt8) (key : String) (value : Option String) : Bytes :=
  [op] ++ leBytes 4 (asBytes key).length ++ asBytes key ++
    value.elim [] fun v => leBytes 4 (asBytes v).length ++ asBytes v

/-- A body that ends with a sequence number. -/
structure CompleteBody (body : Bytes) : Prop where
  short : body.length + 4 < 2 ^ 32
  layout : ∃ op key value number, body = bodyFront op key value ++ number ∧ number.length = 8

/-- A body with a value, and with more bytes behind it than a sequence number has. -/
structure TrailingBody (body : Bytes) : Prop where
  short : body.length + 4 < 2 ^ 32
  layout : ∃ op key value more, body = bodyFront op key (some value) ++ more ∧ 8 < more.length

/-- A record with this body and its checksum. -/
def recordOf (calculateChecksum : Bytes → UInt32) (body : Bytes) : Bytes :=
  leBytes 4 (body.length + 4) ++ leBytes 4 (calculateChecksum body).toNat ++ body

/-- Behind complete records there is one with too many bytes at its end. -/
def ReachesTrailing (calculateChecksum : Bytes → UInt32) (bytes : Bytes) : Prop :=
  ∃ (bodies : List Bytes) (body rest : Bytes), (∀ b ∈ bodies, CompleteBody b) ∧
    TrailingBody body ∧
    bytes = bodies.flatMap (recordOf calculateChecksum) ++ recordOf calculateChecksum body ++ rest

/-- The parser returns, with entries or with the report of a corrupted record. -/
def ParserReturns (calculateChecksum : Bytes → UInt32) (path : String) (bytes : Bytes) : Prop :=
  ∃ entries, (∃ opt, Segment.parseValidateWalEntries calculateChecksum path bytes =
      .ok (entries, .ok opt)) ∨
    ∃ offset, Segment.parseValidateWalEntries calculateChecksum path bytes =
      .ok (entries, .error (.corrupted path offset))

end Rkvs.Interface

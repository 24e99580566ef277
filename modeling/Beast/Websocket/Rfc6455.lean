import Beast.Websocket.Utf8Checker
import Beast.Core.CiCharTraits

/-! The vocabulary of the protocol: opcodes, close codes and reasons, and error codes. -/

namespace Beast.Websocket

/-- The opcodes of frames, reserved ones included. -/
inductive Opcode
  | cont | text | binary | rsv3 | rsv4 | rsv5 | rsv6 | rsv7
  | close | ping | pong | crsvb | crsvc | crsvd | crsve | crsvf
  deriving DecidableEq, Repr

namespace Opcode

/-- The four bits of an opcode on the wire. -/
def nibble : Opcode → Nat
  | cont => 0 | text => 1 | binary => 2 | rsv3 => 3 | rsv4 => 4 | rsv5 => 5 | rsv6 => 6
  | rsv7 => 7 | close => 8 | ping => 9 | pong => 10 | crsvb => 11 | crsvc => 12 | crsvd => 13
  | crsve => 14 | crsvf => 15

/-- The opcode that four bits on the wire stand for. -/
def ofNibble : Nat → Opcode
  | 0 => cont | 1 => text | 2 => binary | 3 => rsv3 | 4 => rsv4 | 5 => rsv5 | 6 => rsv6
  | 7 => rsv7 | 8 => close | 9 => ping | 10 => pong | 11 => crsvb | 12 => crsvc | 13 => crsvd
  | 14 => crsve | _ => crsvf

/-- An opcode is read back from its four bits. -/
@[simp] theorem ofNibble_nibble (op : Opcode) : ofNibble op.nibble = op := by
  cases op <;> rfl

/-- Opcodes fit in four bits. -/
theorem nibble_lt (op : Opcode) : op.nibble < 16 := by
  cases op <;> decide

end Opcode

/-- The status codes that the stream itself puts into close frames, and the internal zero. -/
inductive CloseCode
  | none | normal | protocol_error | bad_payload | too_big
  deriving DecidableEq, Repr

/-- The number that stands for a close code on the wire. -/
def CloseCode.toUInt16 : CloseCode → UInt16
  | .none => 0
  | .normal => 1000
  | .protocol_error => 1002
  | .bad_payload => 1007
  | .too_big => 1009

/-- What a close frame says: a status code or zero, and a text. -/
structure CloseReason where
  code : UInt16 := 0
  reason : Octets := []
  deriving DecidableEq, Repr

/-- The error codes of the stream itself, and those it tests for or passes on. -/
inductive ErrorCode
  | closed | failed | handshake_failed
  | eof | operation_aborted
  | system (value : Nat)
  deriving DecidableEq, Repr

/-- The side of the connection that a stream plays. -/
inductive RoleType
  | client | server
  deriving DecidableEq, Repr

end Beast.Websocket

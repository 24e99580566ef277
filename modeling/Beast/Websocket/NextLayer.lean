import Beast.Core.Pieces
import Beast.Websocket.Rfc6455

/-! The stream that a session runs over, as one side sees it. -/

namespace Beast.Websocket

/-- The stream below: what will arrive, in which pieces, and what is reported. -/
structure NextLayer where
  /-- The octets still to arrive, in the pieces in which they do. -/
  input : List Octets
  /-- What a read reports when everything has arrived. -/
  ending : ErrorCode
  /-- What the write of each number reports. -/
  writing : Nat → Option ErrorCode := fun _ => none
  /-- What was written, one write after another. -/
  sent : List Octets := []
  /-- What closing the connection reports. -/
  teardown : Option ErrorCode := none

namespace NextLayer

/-- The number of octets still to arrive. -/
def left (layer : NextLayer) : Nat := layer.input.flatten.length

/-- Takes so many octets from as many pieces as hold them. -/
def takeAll (n : Nat) : List Octets → Octets × List Octets
  | [] => ([], [])
  | piece :: pieces =>
    if n ≤ piece.length then (piece.take n, piece.drop n :: pieces)
    else (piece ++ (takeAll (n - piece.length) pieces).1, (takeAll (n - piece.length) pieces).2)

/-- Reads at most so many octets: at least one, or none where none are asked for. -/
def readSome (layer : NextLayer) (n : Nat) : Octets × Option ErrorCode × NextLayer :=
  if n = 0 then ([], none, layer)
  else match takeSome n layer.input with
    | ([], _) => ([], some layer.ending, { layer with input := [] })
    | (s, input) => (s, none, { layer with input })

/-- Reads so many octets, or all that are left. -/
def read (layer : NextLayer) (n : Nat) : Octets × Option ErrorCode × NextLayer :=
  let (s, input) := takeAll n layer.input
  (s, if s.length < n then some layer.ending else none, { layer with input })

/-- Writes octets as a whole. -/
def write (layer : NextLayer) (s : Octets) : Option ErrorCode × NextLayer :=
  (layer.writing layer.sent.length, { layer with sent := layer.sent ++ [s] })

end NextLayer

end Beast.Websocket

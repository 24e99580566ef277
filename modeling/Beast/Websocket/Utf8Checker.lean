import Beast.Lib.Utf8

/-! The incremental UTF-8 checker that text messages and close reasons pass through. -/

namespace Beast.Websocket

/-- The checker between two writes: octets still owed, and the octets of a split code point. -/
structure Utf8Checker where
  /-- Octets missing from the code point carried over. -/
  need_ : Nat := 0
  /-- The octets between the start of the carry buffer and its write position. -/
  have_ : List UInt8 := []
  deriving DecidableEq, Repr

namespace Utf8Checker

/-- Checks the code point at the front, and moves past it. -/
def valid (input : List UInt8) : Option (List UInt8) :=
  let at_ := fun i => input.getD i 0
  if at_ 0 < 128 then
    some (input.drop 1)
  else if at_ 0 &&& 0x60 == 0x40 then
    if at_ 1 &&& 0xc0 != 0x80 then none else some (input.drop 2)
  else if at_ 0 &&& 0xf0 == 0xe0 then
    if at_ 1 &&& 0xc0 != 0x80 || at_ 2 &&& 0xc0 != 0x80 ||
        (at_ 0 == 224 && at_ 1 < 160) || (at_ 0 == 237 && at_ 1 > 159) then
      none
    else some (input.drop 3)
  else if at_ 0 &&& 0xf8 == 0xf0 then
    if at_ 0 > 244 || at_ 1 &&& 0xc0 != 0x80 || at_ 2 &&& 0xc0 != 0x80 ||
        at_ 3 &&& 0xc0 != 0x80 ||
        (at_ 0 == 240 && at_ 1 < 144) || (at_ 0 == 244 && at_ 1 > 143) then
      none
    else some (input.drop 4)
  else none

/-- Checks the octets of an unfinished code point as far as they go. -/
def validHave (held : List UInt8) : Bool :=
  let at_ := fun i => held.getD i 0
  let size := held.length
  if at_ 0 &&& 0x60 == 0x40 then
    at_ 0 ≤ 223
  else if at_ 0 &&& 0xf0 == 0xe0 then
    !(size > 1 && (at_ 1 &&& 0xc0 != 0x80 ||
      (at_ 0 == 224 && at_ 1 < 160) || (at_ 0 == 237 && at_ 1 > 159)))
  else if at_ 0 &&& 0xf8 == 0xf0 then
    if size > 2 && at_ 2 &&& 0xc0 != 0x80 then false
    else !(size > 1 && (at_ 1 &&& 0xc0 != 0x80 ||
      (at_ 0 == 240 && at_ 1 < 144) || (at_ 0 == 244 && at_ 1 > 143)))
  else true

/-- The width of the code point a lead octet opens, or zero where none may start so. -/
def needed (input : UInt8) : Nat :=
  if input < 128 then 1
  else if input < 194 then 0
  else if input < 224 then 2
  else if input < 240 then 3
  else if input < 245 then 4
  else 0

/-- Returns the checker to its state before any text. -/
def reset (_ : Utf8Checker) : Utf8Checker :=
  { need_ := 0, have_ := [] }

/-- Reports whether no code point is left open, and resets. -/
def finish (self : Utf8Checker) : Bool × Utf8Checker :=
  let success := self.need_ == 0
  (success, self.reset)

/--
The loop over at least eight remaining octets, which skips a word of ASCII at a time.

Where the platform forbids unaligned reads, a word is tested only at an aligned address.
The fuel is the number of octets given, and every turn consumes at least one of them.
-/
def wordLoop (unaligned : Bool) : Nat → Nat → List UInt8 → Option (List UInt8)
  | 0, _, input => some input
  | fuel + 1, address, input =>
    if input.length < 8 then some input
    else if (unaligned || address % 8 == 0) && (input.take 8).all (· &&& 0x80 == 0) then
      wordLoop unaligned fuel (address + 8) (input.drop 8)
    else match valid input with
      | none => none
      | some rest => wordLoop unaligned fuel (address + (input.length - rest.length)) rest

/-- The loop over at least four remaining octets, one code point at a time. -/
def pointLoop : Nat → List UInt8 → Option (List UInt8)
  | 0, input => some input
  | fuel + 1, input =>
    if input.length < 4 then some input
    else match valid input with
      | none => none
      | some rest => pointLoop fuel rest

/-- The last octets, where a code point may be cut short and carried to the next write. -/
def tailLoop (self : Utf8Checker) : Nat → List UInt8 → Bool × Utf8Checker
  | 0, _ => (true, self)
  | fuel + 1, input =>
    match input with
    | [] => (true, self)
    | lead :: _ =>
      let n := input.length
      let need := needed lead
      if need == 0 then (false, self)
      else if need ≤ n then
        match valid input with
        | none => (false, self)
        | some rest => tailLoop self fuel rest
      else
        -- The write ends inside a code point, so its octets are kept.
        let held := self.have_ ++ input
        (validHave held, { need_ := need - n, have_ := held })

/-- Checks the octets behind the carry, through the three loops. -/
def writeRest (self : Utf8Checker) (unaligned : Bool) (address : Nat) (input : List UInt8) :
    Bool × Utf8Checker :=
  match wordLoop unaligned input.length address input with
  | none => (false, self)
  | some input =>
    match pointLoop input.length input with
    | none => (false, self)
    | some input => tailLoop self (input.length + 1) input

/-- Checks one buffer, found at an address in memory, as the next piece of the text. -/
def write (self : Utf8Checker) (unaligned : Bool) (address : Nat) (input : List UInt8) :
    Bool × Utf8Checker :=
  if self.need_ > 0 then
    -- The open code point takes its missing octets first.
    let n := min input.length self.need_
    let self := { need_ := self.need_ - n, have_ := self.have_ ++ input.take n }
    if self.need_ > 0 then (validHave self.have_, self)
    else match valid self.have_ with
      | none => (false, self)
      | some _ => writeRest { self with have_ := [] } unaligned (address + n) (input.drop n)
  else writeRest self unaligned address input

/-- Checks a sequence of buffers, stopping at the first that is refused. -/
def writeAll (self : Utf8Checker) (unaligned : Bool) : List (Nat × List UInt8) → Bool × Utf8Checker
  | [] => (true, self)
  | (address, input) :: rest =>
    match self.write unaligned address input with
    | (false, self) => (false, self)
    | (true, self) => writeAll self unaligned rest

end Utf8Checker

/-- Checks a whole string at once. -/
def checkUtf8 (unaligned : Bool) (address : Nat) (input : List UInt8) : Bool :=
  match ({} : Utf8Checker).write unaligned address input with
  | (false, _) => false
  | (true, c) => c.finish.1

end Beast.Websocket

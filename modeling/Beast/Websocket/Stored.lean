import Beast.Websocket.StreamBase

/-! A library to run streams on: the checker of the repository, and stored blocks alone. -/

namespace Beast.Websocket

/-- A decompressor for stored blocks: the octets of an open block header, and the data owed. -/
structure StoredInflate where
  held : Octets := []
  left : Nat := 0
  deriving DecidableEq, Repr

/-- Takes the data of stored blocks out of a piece of input. -/
def storedInflate : Nat → StoredInflate → Octets → Octets →
    StoredInflate × Octets × Option ErrorCode
  | 0, zi, out, _ => (zi, out, none)
  | fuel + 1, zi, out, input =>
    if zi.left > 0 then
      let n := min zi.left input.length
      if n == 0 then (zi, out, none)
      else storedInflate fuel { zi with left := zi.left - n } (out ++ input.take n)
        (input.drop n)
    else match input with
      | [] => (zi, out, none)
      | c :: input =>
        match zi.held ++ [c] with
        | [b, l0, l1, n0, n1] =>
          -- A block header: its type, its length, and the complement of its length.
          if b != 0 || n0 != ~~~l0 || n1 != ~~~l1 then (zi, out, some (.system 1))
          else storedInflate fuel { held := [], left := l0.toNat + 256 * l1.toNat } out input
        | held => storedInflate fuel { zi with held } out input

/-- The library of a stream whose peer compresses into stored blocks, and that sends none. -/
def storedLib : Lib where
  Utf8 := Utf8Checker
  utf8_init := {}
  utf8_reset := Utf8Checker.reset
  utf8_write := fun utf8 text => utf8.write true 0 text
  utf8_finish := Utf8Checker.finish
  Inflate := StoredInflate
  inflate_init := {}
  inflate := fun _ zi _ input => storedInflate (2 * input.length + 1) zi [] input
  Deflate := Unit
  deflate_init := ()
  deflate := fun _ _ _ _ _ _ _ => ((), [], [], false, some (.system 1))

-- The values that the options have where nobody sets them are within their bounds.
theorem fifteen_window : (9 : Int) ≤ 15 ∧ (15 : Int) ≤ 15 := by decide

theorem eight_level : (0 : Int) ≤ 8 ∧ (8 : Int) ≤ 9 := by decide

theorem four_memory : (1 : Int) ≤ 4 ∧ (4 : Int) ≤ 9 := by decide

end Beast.Websocket

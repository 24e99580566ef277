import Beast.Http.BasicParser

/-! Writing a sequence of buffers, which is flattened into a scratch buffer that is kept. -/

namespace Beast.Http

/-- A parser with the scratch buffer that it flattens sequences into. -/
structure FlatParser (d : Derived) extends BasicParser d where
  buf_ : Octets := []

variable {d : Derived}

/-- The octets that are parsed for a sequence of buffers, and the scratch buffer behind it. -/
def maybeFlatten (buf_ : Octets) : List Octets → Octets × Octets
  | [] => ([], buf_)
  | [b] => (b, buf_)
  | buffers =>
    let len := buffers.flatten.length
    -- A scratch buffer that is too short is replaced by one of just the right size.
    let buf_ := if len > buf_.length then buffers.flatten else buffers.flatten ++ buf_.drop len
    (buf_, buf_)

/-- Parses as much of a sequence of buffers as can be consumed now, and returns its size. -/
def writeSequence (isRequest : Bool) (buffers : List Octets) : Step Halt (FlatParser d) Nat :=
  fun self =>
    let flat := maybeFlatten self.buf_ buffers
    let wrote := Step.run (write isRequest flat.1) self.toBasicParser
    (wrote.1, { wrote.2 with buf_ := flat.2 })

/-- Whether a sequence is parsed as its octets in one buffer are: outcome, calls, and state. -/
def ParsesAsOne (isRequest : Bool) (buffers : List Octets) (p : FlatParser d) : Prop :=
  (Step.run (writeSequence isRequest buffers) p).1 =
      (Step.run (write isRequest buffers.flatten) p.toBasicParser).1 ∧
    (Step.run (writeSequence isRequest buffers) p).2.toBasicParser =
      (Step.run (write isRequest buffers.flatten) p.toBasicParser).2

/-- What is parsed is the octets of the sequence, and the old end of a longer scratch buffer. -/
theorem maybeFlatten_fst (buf_ : Octets) (buffers : List Octets) :
    (maybeFlatten buf_ buffers).1 =
      if buffers.length ≤ 1 then buffers.flatten
      else buffers.flatten ++ buf_.drop buffers.flatten.length := by
  match buffers with
  | [] => rfl
  | [b] => simp [maybeFlatten]
  | b :: c :: rest =>
    rw [if_neg (by simp)]
    unfold maybeFlatten
    dsimp only
    split
    · rename_i short
      rw [List.drop_eq_nil_of_le (Nat.le_of_lt short), List.append_nil]
    · rfl

/-- The parsers that are reached by writing sequences, one after another, from a new one. -/
inductive Reached (isRequest : Bool) : FlatParser d → Prop
  | new (len x : Nat) (impl : d.State) : Reached isRequest { len_ := len, x_ := x, impl }
  | write {p : FlatParser d} (buffers : List Octets) : Reached isRequest p →
      Reached isRequest (Step.run (writeSequence isRequest buffers) p).2

/-- A derived class that accepts every call. -/
def everything : Derived := { State := Unit, call := fun _ _ => ((), none) }

/-- A body that only ends with the stream takes all the octets that are parsed, and goes on. -/
theorem untilEof_write {p : BasicParser everything} (state : p.state_ = .body_to_eof)
    (buffer : Octets) :
    (Step.run (write false buffer) p).1 = .ok buffer.length ∧
      (Step.run (write false buffer) p).2.state_ = .body_to_eof := by
  rcases p with ⟨message, skip, x, body⟩
  rcases message with ⟨len, f, st, ext, impl⟩
  obtain rfl : st = .body_to_eof := state
  simp only [write, Step.run_get_bind]
  rcases f with ⟨f1, onBody, f3, f4, f5, f6, f7, f8, f9, f10, f11, length, f13, f14⟩
  cases onBody <;> cases length <;> exact ⟨rfl, rfl⟩

/-- A parser of a response whose body only ends with the stream, behind the header. -/
def headed : FlatParser everything :=
  (Step.run (writeSequence false [octets "HTTP/1.0 200 OK\r\n\r\n"])
    { len_ := 0, x_ := 0, impl := () }).2

theorem headed_state : headed.state_ = .body_to_eof := by decide +kernel

theorem headed_reached : Reached false headed := by
  unfold headed
  exact Reached.write _ (Reached.new (d := everything) 0 0 ())

theorem headed_buf : headed.buf_ = [] := by decide +kernel

/-- Behind a sequence of two buffers, the sequence is kept in the scratch buffer. -/
theorem kept_sequence {p : FlatParser everything} (reached : Reached false p) (new : p.buf_ = [])
    (state : p.state_ = .body_to_eof) (buf_ : Octets) :
    ∃ p : FlatParser everything, Reached false p ∧ p.buf_ = buf_ ∧ p.state_ = .body_to_eof := by
  refine ⟨(Step.run (writeSequence false [buf_, []]) p).2, .write _ reached, ?_,
    (untilEof_write state _).2⟩
  have kept : (Step.run (writeSequence false [buf_, []]) p).2.buf_ =
      (maybeFlatten p.buf_ [buf_, []]).2 := rfl
  rw [kept, new]
  cases buf_ <;> simp [maybeFlatten]

end Beast.Http

import Beast.Http.BasicParserBaseLaws
import Beast.Http.ChunkEncode
import Beast.Http.Delivery
import Beast.Http.FramingLaws
import Mathlib.Tactic.Ring

/-! A body that was encoded in chunks is decoded, and nothing of what follows it. -/

namespace Beast.Http

/-- The digits that a number is written with, and read from. -/
structure Digits (n : Nat) (ds : Octets) : Prop where
  written : ∀ last, toHex n last = .ok (ds ++ last)
  read : ∀ it, parseHex (ds ++ it) = parseHexLoop n it
  plain : ∀ c ∈ ds, c ≠ 13

/-- A digit that was written is read, and is no end of a line. -/
theorem unhex_hexDigit {n : Nat} (small : n < 16) :
    ∃ v, unhex (hexDigit n) = some v ∧ v.toNat = n ∧ hexDigit n ≠ 13 := by
  -- Sixteen digits, each checked against the table.
  rcases n with _ | _ | _ | _ | _ | _ | _ | _ | _ | _ | _ | _ | _ | _ | _ | _ | n
  all_goals first | exact ⟨_, rfl, rfl, by decide⟩ | omega

/-- The digits of a number that is not zero, where there is room for them. -/
theorem toHexLoop_spec {room n : Nat} (some_ : 0 < n) (fits : n < 16 ^ room) (most : n < 2 ^ 64) :
    ∃ ds, (∀ last, toHexLoop room n last = .ok (ds ++ last)) ∧
      (∀ it, parseHex (ds ++ it) = parseHexLoop n it) ∧ ∀ c ∈ ds, c ≠ 13 := by
  induction room generalizing n with
  | zero => omega
  | succ room ih =>
    obtain ⟨n, rfl⟩ := Nat.exists_eq_add_one_of_ne_zero (Nat.pos_iff_ne_zero.mp some_)
    have low : (n + 1) &&& 15 = (n + 1) % 16 := Nat.and_two_pow_sub_one_eq_mod (n + 1) 4
    have high : (n + 1) >>> 4 = (n + 1) / 16 := Nat.shiftRight_eq_div_pow (n + 1) 4
    obtain ⟨v, valued, digit, plain⟩ := @unhex_hexDigit ((n + 1) % 16) (by omega)
    by_cases more : 0 < (n + 1) / 16
    · have smaller : (n + 1) / 16 < 16 ^ room := by
        rw [Nat.pow_succ] at fits
        omega
      obtain ⟨ds, written, read, plains⟩ := ih more smaller (by omega)
      refine ⟨ds ++ [hexDigit ((n + 1) % 16)], fun last => ?_, fun it => ?_, fun c there => ?_⟩
      · rw [toHexLoop, high, low, written, List.append_assoc]
        rfl
      · -- The last digit makes the value grow, for the digits before it are not all zero.
        rw [List.append_assoc, read, List.singleton_append]
        have grown : (16 * ((n + 1) / 16) + v.toNat) % 2 ^ 64 = n + 1 := by
          rw [digit]
          omega
        simp only [parseHexLoop, valued, grown]
        rw [if_neg (by omega)]
      · rcases List.mem_append.mp there with inside | last
        · exact plains c inside
        · rw [List.mem_singleton.mp last]
          exact plain
    · have single : (n + 1) % 16 = n + 1 := by omega
      refine ⟨[hexDigit ((n + 1) % 16)], fun last => ?_, fun it => ?_, fun c there => ?_⟩
      · rw [toHexLoop, high, low, show (n + 1) / 16 = 0 by omega, toHexLoop]
        rfl
      · rw [List.singleton_append]
        simp only [parseHex, valued]
        rw [digit, single]
      · rw [List.mem_singleton.mp there]
        exact plain

/-- Every number of 64 bits is written with digits that fit, and is read from them. -/
theorem digits_of {n : Nat} (most : n < 2 ^ 64) : ∃ ds, Digits n ds := by
  by_cases zero : n = 0
  · subst zero
    exact ⟨[octet '0'], fun last => rfl, fun it => rfl, by decide +kernel⟩
  · obtain ⟨ds, written, read, plain⟩ := @toHexLoop_spec 16 n (by omega) (by omega) most
    refine ⟨ds, fun last => ?_, read, plain⟩
    rw [toHex, if_neg (by simpa using zero)]
    exact written last

variable {d : Derived} {isRequest : Bool} {m : Message d}

/-- The message once the body is announced. -/
def Message.begun (m : Message d) : Message d :=
  if m.f_.flagOnBody then m
  else
    { m with
      f_ := { m.f_ with flagOnBody := true }
      impl := (d.call m.impl (.on_body (if m.f_.flagContentLength then some m.len_ else none))).1 }

/-- Where every call is taken, the body is announced. -/
theorem run_maybeDoBody (obliging : Obliging d) (m : Message d) :
    Step.run maybeDoBodyIndirect m = (.ok (), m.begun) := by
  unfold maybeDoBodyIndirect setFlags Message.begun
  rw [Step.run_get_bind]
  split
  · rfl
  · rw [Step.run_modify_bind]
    split <;> exact run_invoke obliging _ _

/-- An announcement leaves the state, and whether the end of a chunk is expected. -/
theorem begun_same (m : Message d) : m.begun.state_ = m.state_ ∧
    m.begun.f_.flagExpectCRLF = m.f_.flagExpectCRLF := by
  unfold Message.begun
  split <;> exact ⟨rfl, rfl⟩

/-- Behind an announcement, the body is announced. -/
theorem begun_told (m : Message d) : m.begun.f_.flagOnBody = true := by
  unfold Message.begun
  split
  · assumption
  · rfl

/-- The end of the chunk before, where one is expected. -/
def Message.between (m : Message d) : Octets :=
  if m.f_.flagExpectCRLF then crlf else []

/-- The line of a chunk is looked at behind the end of the chunk before. -/
theorem chunkStep_between (text : Octets) :
    Step.run (chunkStep (m.between ++ text)) m =
      Step.run (chunkLineStep (m.between ++ text) text) m := by
  unfold chunkStep Message.between
  rw [Step.run_get_bind]
  split
  · have ended : parseCrlf (crlf ++ text) = .ok (true, text) := rfl
    have long : ¬(crlf ++ text).length < 2 := by simp [crlf]
    rw [if_neg long, ended]
    rfl
  · rfl

/-- The message in a chunk whose line was read. -/
def Message.inChunk (m : Message d) (n : Nat) : Message d :=
  { m with len_ := n, f_ := { m.f_ with flagExpectCRLF := true }, state_ := .chunk_body }

/-- The line of a chunk opens it. -/
theorem chunkLineStep_write {n : Nat} {ds : Octets} (digits : Digits n ds) (some_ : n ≠ 0)
    (front it : Octets) : Step.run (chunkLineStep (front ++ (ds ++ crlf ++ it)) (ds ++ crlf ++ it)) m =
      (.ok (front.length + ds.length + 2), m.inChunk n) := by
  have long : ¬(ds ++ crlf ++ it).length < 2 := by
    simp only [crlf, List.length_append, List.length_cons]
    omega
  have size : parseHex (ds ++ crlf ++ it) = .ok (some n, crlf ++ it) := by
    rw [List.append_assoc, digits.read]
    simp [parseHexLoop, crlf, unhex_return]
  have start : (front ++ (ds ++ crlf ++ it)).length - (ds ++ crlf ++ it).length = front.length := by
    rw [List.length_append]
    omega
  have offset : (ds ++ crlf ++ it).length - (crlf ++ it).length = ds.length := by
    rw [List.append_assoc, List.length_append]
    omega
  have opened : Step.run (openChunk (d := d) (ds ++ crlf ++ it) (crlf ++ it) n (ds.length + 2)) m =
      (.ok (), m.inChunk n) := by
    have first : peek (crlf ++ it) = .ok 13 := rfl
    have plain : ((13 : UInt8) == octet ';') = false := by decide
    have whole : (ds.length != ds.length + 2 - 2) = false := by simp
    unfold openChunk
    rw [first, Step.run_lift_ok_bind, offset]
    simp only [plain, whole, Bool.false_eq_true, ↓reduceIte]
    rfl
  unfold chunkLineStep
  rw [if_neg long, findEol_write digits.plain]
  unfold chunkSizeStep
  rw [size, Step.run_lift_ok_bind]
  dsimp only
  rw [if_pos (by simpa using some_), Step.run_bind_ok opened, start, Step.run_pure, Nat.add_assoc]

/-- A chunk is opened behind the one before. -/
theorem rescan_open (obliging : Obliging d) (header : m.state_ = .chunk_header) {n : Nat}
    {ds : Octets} (digits : Digits n ds) (some_ : n ≠ 0) (it : Octets) :
    Step.run (rescan isRequest (m.between ++ (ds ++ crlf ++ it))) m =
      (.ok (m.between.length + ds.length + 2), m.begun.inChunk n) := by
  have begun : Step.run (beginStep (m.between ++ (ds ++ crlf ++ it)) .chunk_header) m =
      (.ok (), m.begun) := run_maybeDoBody obliging m
  have same : m.between = m.begun.between := by
    unfold Message.between
    rw [(begun_same m).2]
  unfold rescan
  rw [Step.run_get_bind, header, Step.run_bind_ok begun]
  unfold bufferStep
  rw [same, chunkStep_between, chunkLineStep_write digits some_]

/-- The octets of a chunk are passed on, up to its end. -/
theorem rescan_data (obliging : Obliging d) (inside : m.state_ = .chunk_body) {data : Octets}
    (size : m.len_ = data.length) (it : Octets) :
    Step.run (rescan isRequest (data ++ it)) m = (.ok data.length,
      { m with
        len_ := 0
        state_ := .chunk_header
        impl := (d.call m.impl (.on_data data)).1 }) := by
  have all : min m.len_ (data ++ it).length = data.length := by
    rw [size, List.length_append]
    omega
  have passed : Step.run (passData data) m = (.ok (),
      { m with len_ := 0, impl := (d.call m.impl (.on_data data)).1 }) := by
    unfold passData
    rw [Step.run_bind_ok (run_invoke obliging _ _), Step.run_modify, size, Nat.sub_self]
  unfold rescan
  rw [Step.run_get_bind, inside]
  unfold beginStep bufferStep dataStep
  rw [Step.run_pure_bind, Step.run_get_bind, all]
  dsimp only
  rw [List.take_left, Step.run_bind_ok passed]
  rfl

/-- Where every call is taken, a message is completed. -/
theorem run_doComplete (obliging : Obliging d) (m : Message d) : Step.run doComplete m =
    (.ok (), { m with state_ := .complete, impl := (d.call m.impl .on_complete).1 }) := by
  unfold doComplete
  rw [Step.run_bind_ok (run_invoke obliging _ _)]
  rfl

/-- The message behind the last chunk. -/
def Message.ended (m : Message d) : Message d :=
  { m with
    f_ := { m.f_ with flagFinalChunk := true }
    state_ := .complete
    impl := (d.call m.impl .on_complete).1 }

/-- The last chunk ends the message. -/
theorem rescan_final (obliging : Obliging d) (header : m.state_ = .chunk_header) (it : Octets) :
    Step.run (rescan isRequest (m.between ++ (chunkEncodeFinal ++ it))) m =
      (.ok (m.between.length + 5), m.begun.ended) := by
  have begun : Step.run (beginStep (m.between ++ (chunkEncodeFinal ++ it)) .chunk_header) m =
      (.ok (), m.begun) := run_maybeDoBody obliging m
  have same : m.between = m.begun.between := by
    unfold Message.between
    rw [(begun_same m).2]
  unfold rescan
  rw [Step.run_get_bind, header, Step.run_bind_ok begun]
  unfold bufferStep
  rw [same, chunkStep_between]
  generalize m.begun = m
  generalize m.between = front
  -- All that is read behind the front is in the last chunk itself.
  have final : chunkEncodeFinal = [48, 13, 10, 13, 10] := rfl
  have long : ¬(chunkEncodeFinal ++ it).length < 2 := by
    simp only [final, List.length_append, List.length_cons]
    omega
  have line : findEol (chunkEncodeFinal ++ it) = .found 3 := rfl
  have size : parseHex (chunkEncodeFinal ++ it) = .ok (some 0, 13 :: 10 :: 13 :: 10 :: it) := rfl
  have start : (front ++ (chunkEncodeFinal ++ it)).length - (chunkEncodeFinal ++ it).length =
      front.length := by
    rw [List.length_append]
    omega
  have offset : (front ++ (chunkEncodeFinal ++ it)).length -
      (13 :: 10 :: 13 :: 10 :: it : Octets).length = front.length + 1 := by
    simp only [final, List.length_append, List.length_cons, List.length_nil]
    omega
  have behind : (front ++ (chunkEncodeFinal ++ it)).drop (front.length + 1) =
      13 :: 10 :: 13 :: 10 :: it := by
    rw [List.drop_append, List.drop_of_length_le (by omega), Nat.add_sub_cancel_left]
    rfl
  have block : (front ++ (chunkEncodeFinal ++ it)).take (front.length + 1 + 4) =
      front ++ chunkEncodeFinal := by
    rw [← List.append_assoc]
    exact List.take_left' (by simp [final])
  have trailer : ∀ m : Message d, Step.run (parseTrailer (front ++ chunkEncodeFinal)
      (front.length + 1) (front.length + 1)) m = Step.run doComplete m := by
    intro m
    have rest : (front ++ chunkEncodeFinal).drop (front.length + 1) = [13, 10, 13, 10] := by
      rw [List.drop_append, List.drop_of_length_le (by omega), Nat.add_sub_cancel_left]
      rfl
    unfold parseTrailer
    rw [rest]
    rfl
  unfold chunkLineStep
  rw [if_neg long, line]
  unfold chunkSizeStep
  rw [size, Step.run_lift_ok_bind]
  dsimp only
  rw [if_neg (by decide), start, offset]
  unfold setFlags lastChunkStep
  rw [Step.run_modify_bind, show front.length + 3 - 2 = front.length + 1 from rfl, behind]
  simp only [findEom_empty, ↓reduceIte, Scan.shift]
  rw [block, Step.run_bind, trailer, run_doComplete obliging]
  rfl

/-- What a sequence of buffers is encoded as. -/
def chunkOf (sequence : List Octets) : Octets :=
  match chunkEncode false sequence with
  | .ok chunk => chunk
  | .error _ => []

/-- A sequence of a size that has 64 bits is encoded. -/
theorem chunkEncode_ok {sequence : List Octets} (fits : sequence.flatten.length < 2 ^ 64) :
    chunkEncode false sequence = .ok (chunkOf sequence) ∧
      ∃ ds, Digits sequence.flatten.length ds ∧
        chunkOf sequence = ds ++ crlf ++ sequence.flatten ++ crlf := by
  have size : bufferSize sequence = sequence.flatten.length := by
    rw [bufferSize, ← List.length_flatten, Nat.mod_eq_of_lt fits]
  obtain ⟨ds, digits⟩ := digits_of fits
  have encoded : chunkEncode false sequence = .ok (ds ++ crlf ++ sequence.flatten ++ crlf) := by
    unfold chunkEncode chunkEncodeDelim
    rw [size, digits.written]
    rfl
  unfold chunkOf
  rw [encoded]
  exact ⟨rfl, ds, digits, rfl⟩

/-- Nothing at all is encoded as the chunk that ends a body. -/
theorem chunkOf_nothing {sequence : List Octets} (nothing : sequence.flatten = []) :
    chunkOf sequence = chunkEncodeFinal := by
  have size : bufferSize sequence = 0 := by
    rw [bufferSize, ← List.length_flatten, nothing]
    rfl
  unfold chunkOf chunkEncode chunkEncodeDelim
  rw [size, nothing]
  rfl

/-- Sequences of buffers, encoded one after another. -/
def chunks (pieces : List (List Octets)) : Octets := pieces.flatMap chunkOf

/-- Chunks that are not empty are decoded up to the last one, and what follows it is left. -/
theorem chunks_leave (obliging : Obliging d) {pieces : List (List Octets)}
    (sized : ∀ b ∈ pieces, b.flatten ≠ [] ∧ b.flatten.length < 2 ^ 64)
    (header : m.state_ = .chunk_header) (it : Octets) :
    ∃ t, Leaves isRequest (m.between ++ (chunks pieces ++ (chunkEncodeFinal ++ it))) m (.ok ()) it t ∧
      t.state_ = .complete ∧
      t.impl = tells d m.begun.impl (pieces.map (fun b => .on_data b.flatten) ++ [.on_complete]) := by
  have open_ : ∀ {m : Message d}, m.state_ = .chunk_header → m.state_ ≠ .complete := by
    intro m header
    simp [header]
  induction pieces generalizing m with
  | nil =>
    refine ⟨m.begun.ended, ?_, rfl, rfl⟩
    have taken := @rescan_final d isRequest m obliging header it
    refine .step (open_ header) (by simp [chunks, chunkEncodeFinal, octets]) (by omega) taken ?_
    have rest : (m.between ++ (chunkEncodeFinal ++ it)).drop (m.between.length + 5) = it := by
      rw [← List.append_assoc]
      exact List.drop_left' (by simp [chunkEncodeFinal, octets])
    rw [chunks, List.flatMap_nil, List.nil_append, rest]
    exact .complete rfl
  | cons b pieces ih =>
    obtain ⟨some_, fits⟩ := sized b List.mem_cons_self
    obtain ⟨_, ds, digits, encoded⟩ := chunkEncode_ok fits
    have size : b.flatten.length ≠ 0 := fun zero => some_ (List.eq_nil_of_length_eq_zero zero)
    -- The message behind the line of the chunk, and behind its octets.
    have inside : (m.begun.inChunk b.flatten.length).state_ = .chunk_body := rfl
    have opened := @rescan_open d isRequest m obliging header _ ds digits size
      (b.flatten ++ (crlf ++ (chunks pieces ++ (chunkEncodeFinal ++ it))))
    have passed := @rescan_data d isRequest _ obliging inside _ rfl
      (crlf ++ (chunks pieces ++ (chunkEncodeFinal ++ it)))
    generalize behind : ({ m.begun.inChunk b.flatten.length with
      len_ := 0
      state_ := ParseState.chunk_header
      impl := (d.call (m.begun.inChunk b.flatten.length).impl (.on_data b.flatten)).1 } :
        Message d) = u at passed
    have header' : u.state_ = .chunk_header := by
      rw [← behind]
    have between : u.between = crlf := by
      rw [← behind]
      rfl
    have announced : u.begun = u := by
      have told : u.f_.flagOnBody = true := by
        rw [← behind]
        exact begun_told m
      rw [Message.begun, if_pos told]
    obtain ⟨t, rest, complete, calls⟩ := ih (fun b there => sized b (List.mem_cons_of_mem _ there))
      header'
    have text : m.between ++ (chunks (b :: pieces) ++ (chunkEncodeFinal ++ it)) =
        m.between ++ (ds ++ crlf ++ (b.flatten ++ (crlf ++
          (chunks pieces ++ (chunkEncodeFinal ++ it))))) := by
      simp only [chunks, List.flatMap_cons, encoded, List.append_assoc]
    refine ⟨t, ?_, complete, ?_⟩
    · rw [text]
      refine .step (open_ header) (by simp [crlf]) (by omega) opened ?_
      have here : (m.between ++ (ds ++ crlf ++ (b.flatten ++ (crlf ++
          (chunks pieces ++ (chunkEncodeFinal ++ it)))))).drop
            (m.between.length + ds.length + 2) =
          b.flatten ++ (crlf ++ (chunks pieces ++ (chunkEncodeFinal ++ it))) := by
        rw [← List.append_assoc]
        exact List.drop_left' (by simp [crlf, Nat.add_assoc])
      rw [here]
      have within : (m.begun.inChunk b.flatten.length).state_ ≠ .complete := by
        rw [inside]
        exact fun ended => by cases ended
      refine .step within (by simp [crlf]) (Nat.pos_of_ne_zero size) passed ?_
      rw [List.drop_left, ← between]
      exact rest
    · rw [calls, announced, ← behind]
      rfl

end Beast.Http

import Mathlib.Data.List.TakeWhile
import Beast.Http.BasicParserBaseLaws
import Beast.Http.NumberLaws
import Beast.Http.BasicParser

/-! When the size of a chunk is read as its sender denoted it. -/

namespace Beast.Http

open Numeral

/-- A hexadecimal digit. -/
def isHexDigit (c : UInt8) : Bool :=
  isDigit c || (octet 'A' ≤ c && c ≤ octet 'F') || (octet 'a' ≤ c && c ≤ octet 'f')

/-- The value of a hexadecimal digit. -/
def hexDigitValue (c : UInt8) : Nat :=
  if isDigit c then c.toNat - (octet '0').toNat
  else if octet 'a' ≤ c then c.toNat - (octet 'a').toNat + 10
  else c.toNat - (octet 'A').toNat + 10

/-- The number that a string of hexadecimal digits denotes. -/
def hexValue (s : Octets) : Nat := denotes 16 0 (s.map hexDigitValue)

/-- The value that the parser's table gives an octet. -/
def unhexValue (c : UInt8) : Nat := ((unhex c).getD 0).toNat

/-- The octets at a position that the parser's table takes for digits. -/
def hexRun (it : Octets) : Octets := it.takeWhile fun c => (unhex c).isSome

/-- Whether the accumulator grows with every octet behind the first that is taken for a digit. -/
def SizeClimbs (it : Octets) : Prop :=
  match hexRun it with
  | [] => True
  | c :: run => Climbs 16 (2 ^ 64) (unhexValue c) (run.map unhexValue)

instance (it : Octets) : Decidable (SizeClimbs it) := by
  unfold SizeClimbs
  split <;> infer_instance

/-- A size that fits is read as what it denotes, and no other size is read. -/
def SizeExact (s behind : Octets) : Prop :=
  (hexValue s < 2 ^ 64 → parseHex (s ++ behind) = .ok (some (hexValue s), behind)) ∧
    (2 ^ 64 ≤ hexValue s → ∃ it, parseHex (s ++ behind) = .ok (none, it))

/-- What the parser does with the line of a chunk whose size was read. -/
def takeChunkSize {d : Derived} (first p it : Octets) (term v : Nat) : ParserStep d Nat := do
  let start := first.length - p.length
  if v != 0 then do
    onMessage (openChunk p it v term)
    modify fun self => { self with skip_ := 0 }
    return start + term
  else do
    let x := start + term - 2
    modify fun self => { self with x_ := x, skip_ := x }
    onMessage (setFlags fun f => { f with flagFinalChunk := true })
    parseLastChunk first p.length (first.length - it.length)

/-- A chunk is taken with just the size that was denoted, and refused where that does not fit. -/
def ChunkExact (s behind : Octets) : Prop :=
  ∀ (d : Derived) (p : BasicParser d) (first : Octets) (term : Nat),
    Step.run (parseChunkSize first (s ++ behind) term) p =
      if hexValue s < 2 ^ 64 then
        Step.run (takeChunkSize first (s ++ behind) behind term (hexValue s)) p
      else Step.run (fail .bad_chunk) p

/-- A chunk that is taken with a size other than zero is open, with that size left of it. -/
theorem takeChunkSize_opens {d : Derived} {p q : BasicParser d} {first line it : Octets}
    {term v n : Nat} (some_ : v ≠ 0)
    (taken : Step.run (takeChunkSize first line it term v) p = (.ok n, q)) :
    q.state_ = .chunk_body ∧ q.len_ = v := by
  unfold takeChunkSize at taken
  rw [if_pos (by simpa using some_)] at taken
  obtain ⟨_, p', opened, taken⟩ := Step.bind_ok taken
  -- The last change of the message sets its state and its size.
  have within : ∀ {m m' : Message d}, Step.run (modify fun self : Message d =>
      { self with
        len_ := v
        f_ := { self.f_ with flagExpectCRLF := true }
        state_ := .chunk_body } : MessageStep d Unit) m = (.ok (), m') →
      m'.state_ = .chunk_body ∧ m'.len_ = v := by
    intro m m' ran
    cases ran
    exact ⟨rfl, rfl⟩
  have message : ∃ m', Step.run (openChunk line it v term) p.toMessage = (.ok (), m') ∧
      p' = { p with toMessage := m' } := by
    rw [onMessage, Step.run_zoom] at opened
    rcases ran : Step.run (openChunk line it v term) p.toMessage with ⟨r, m'⟩
    rw [ran] at opened
    cases opened
    exact ⟨m', rfl, rfl⟩
  obtain ⟨m', ran, rfl⟩ := message
  have open_ : m'.state_ = .chunk_body ∧ m'.len_ = v := by
    unfold openChunk at ran
    obtain ⟨c, u, _, ran⟩ := Step.bind_ok ran
    dsimp only at ran
    split at ran
    · obtain ⟨_, u, _, ran⟩ := Step.bind_ok ran
      obtain ⟨_, u, _, ran⟩ := Step.bind_ok ran
      exact within ran
    · split at ran
      · obtain ⟨_, u, stopped, _⟩ := Step.bind_ok ran
        simp [fail] at stopped
      · exact within ran
  cases taken
  exact open_

/-- The parser's table agrees with the digits, and takes sixteen other octets for digits. -/
theorem unhex_digit (c : UInt8) (digit : isHexDigit c = true) :
    (unhex c).isSome = true ∧ unhexValue c = hexDigitValue c ∧
      (unhexValue c = 0 → c = octet '0') := by
  obtain ⟨c⟩ := c
  revert c
  decide +kernel

/-- On digits, the parser's table gives the number that they denote. -/
theorem hexValue_eq {s : Octets} (digits : s.all isHexDigit = true) :
    hexValue s = denotes 16 0 (s.map unhexValue) := by
  have each : s.map hexDigitValue = s.map unhexValue :=
    List.map_congr_left fun c there =>
      (unhex_digit c (List.all_eq_true.mp digits c there)).2.1.symm
  rw [hexValue, each]

/-- An octet that is taken for a digit has a value of eight bits. -/
theorem unhexValue_lt (c : UInt8) : unhexValue c < 2 ^ 64 :=
  Nat.lt_trans ((unhex c).getD 0).toNat_lt (by decide)

/-- The loop over further digits stops at the octet behind them, unless it saw no growth. -/
theorem parseHexLoop_run {run it : Octets} {e : UInt8} (digits : ∀ c ∈ run, (unhex c).isSome = true)
    (stops : unhex e = none) (v : Nat) :
    (Climbs 16 (2 ^ 64) v (run.map unhexValue) →
      parseHexLoop v (run ++ e :: it) =
        .ok (some (wraps 16 (2 ^ 64) v (run.map unhexValue)), e :: it)) ∧
    (¬Climbs 16 (2 ^ 64) v (run.map unhexValue) →
      ∃ left, parseHexLoop v (run ++ e :: it) = .ok (none, left)) := by
  induction run generalizing v with
  | nil => simp [parseHexLoop, stops, Climbs]
  | cons c run ih =>
    obtain ⟨value, digit⟩ := Option.isSome_iff_exists.mp (digits c List.mem_cons_self)
    have valued : unhexValue c = value.toNat := by simp [unhexValue, digit]
    have rest := ih (fun b there => digits b (List.mem_cons_of_mem _ there))
      ((16 * v + value.toNat) % 2 ^ 64)
    simp only [List.cons_append, parseHexLoop, digit, List.map_cons, valued, wraps_cons, Climbs]
    by_cases grows : v < (16 * v + value.toNat) % 2 ^ 64
    · -- This digit makes the value grow, and the others decide.
      rw [if_neg (Nat.not_le.mpr grows)]
      simp only [grows, true_and]
      exact rest
    · rw [if_pos (Nat.not_lt.mp grows)]
      refine ⟨fun climbs => absurd climbs.1 grows, fun _ => ⟨_, rfl⟩⟩

/-- Behind octets that are taken for digits, a run goes on with those that follow. -/
theorem hexRun_append {s behind : Octets} (digits : ∀ c ∈ s, (unhex c).isSome = true) :
    hexRun (s ++ behind) = s ++ hexRun behind :=
  List.takeWhile_append_of_pos digits

/-- A text that holds an octet other than those taken for digits has one behind its run. -/
theorem hexRun_ends {it : Octets} (ended : ∃ e ∈ it, unhex e = none) :
    ∃ e left, it = hexRun it ++ e :: left ∧ unhex e = none := by
  have split := List.takeWhile_append_dropWhile (p := fun c => (unhex c).isSome) (l := it)
  cases left : it.dropWhile (fun c => (unhex c).isSome) with
  | nil =>
    -- Everything would be taken for a digit.
    obtain ⟨e, there, other⟩ := ended
    have taken := List.dropWhile_eq_nil_iff.mp left e there
    simp [other] at taken
  | cons e left' =>
    have stops := List.head?_dropWhile_not (fun c => (unhex c).isSome) it
    rw [left] at split stops
    exact ⟨e, left', split.symm, by simpa using stops⟩

variable {s behind : Octets}

/-- What the parser reads behind a first digit, by whether its accumulator grows throughout. -/
theorem parseHex_run (some_ : s ≠ []) (digits : s.all isHexDigit = true)
    (ended : ∃ e ∈ behind, unhex e = none) :
    (SizeClimbs (s ++ behind) → ∃ v e left, behind = hexRun behind ++ e :: left ∧
      unhex e = none ∧ parseHex (s ++ behind) = .ok (some v, e :: left) ∧
        (hexRun behind = [] → hexValue s < 2 ^ 64 → v = hexValue s)) ∧
    (¬SizeClimbs (s ++ behind) → ∃ left, parseHex (s ++ behind) = .ok (none, left)) := by
  obtain ⟨c, s, rfl⟩ := List.exists_cons_of_ne_nil some_
  have taken : ∀ b ∈ c :: s, (unhex b).isSome = true := by
    intro b there
    exact (unhex_digit b (List.all_eq_true.mp digits b there)).1
  obtain ⟨value, digit⟩ := Option.isSome_iff_exists.mp (taken c List.mem_cons_self)
  have valued : unhexValue c = value.toNat := by simp [unhexValue, digit]
  obtain ⟨e, left, text, stops⟩ := hexRun_ends ended
  have run : ∀ b ∈ s ++ hexRun behind, (unhex b).isSome = true := by
    intro b there
    rcases List.mem_append.mp there with here | here
    · exact taken b (List.mem_cons_of_mem _ here)
    · exact List.mem_takeWhile_imp (p := fun c => (unhex c).isSome) here
  have loop := @parseHexLoop_run (s ++ hexRun behind) left e run stops value.toNat
  have whole : (c :: s) ++ behind = c :: ((s ++ hexRun behind) ++ e :: left) := by
    rw [List.append_assoc, ← text]
    rfl
  have climbs : SizeClimbs ((c :: s) ++ behind) ↔
      Climbs 16 (2 ^ 64) value.toNat ((s ++ hexRun behind).map unhexValue) := by
    rw [SizeClimbs, hexRun_append taken, ← valued]
    rfl
  rw [climbs, whole, parseHex, digit]
  refine ⟨fun grows => ⟨_, e, left, text, stops, loop.1 grows, fun bare fits => ?_⟩, loop.2⟩
  -- Nothing is dropped of a size that fits.
  have first : 16 * 0 + unhexValue c = unhexValue c := by omega
  rw [bare, List.append_nil, ← valued]
  rw [hexValue_eq digits, List.map_cons, denotes_cons, first] at fits
  rw [hexValue_eq digits, List.map_cons, denotes_cons, first]
  exact wraps_of_fits (by omega) fits

/-- Where a size fits, its accumulator grows unless the size opens with two zeros. -/
theorem sizeClimbs_iff (some_ : s ≠ []) (digits : s.all isHexDigit = true)
    (bare : hexRun behind = []) (fits : hexValue s < 2 ^ 64) :
    SizeClimbs (s ++ behind) ↔ ¬octets "00" <+: s := by
  obtain ⟨c, s, rfl⟩ := List.exists_cons_of_ne_nil some_
  have taken : ∀ b ∈ c :: s, (unhex b).isSome = true ∧ (unhexValue b = 0 → b = octet '0') := by
    intro b there
    obtain ⟨known, _, zero⟩ := unhex_digit b (List.all_eq_true.mp digits b there)
    exact ⟨known, zero⟩
  have first : 16 * 0 + unhexValue c = unhexValue c := by omega
  rw [hexValue_eq digits, List.map_cons, denotes_cons, first] at fits
  rw [SizeClimbs, hexRun_append fun b there => (taken b there).1, bare, List.append_nil]
  dsimp only
  have zeros : octets "00" = [octet '0', octet '0'] := rfl
  by_cases zero : unhexValue c = 0
  · obtain rfl := (taken c List.mem_cons_self).2 zero
    rw [zero] at fits ⊢
    cases s with
    | nil => simp [Climbs, zeros]
    | cons b s =>
      -- A second zero does not make the accumulator grow, and any other digit does.
      rw [List.map_cons] at fits ⊢
      rw [climbs_zero_iff (by omega) fits]
      have second : unhexValue b = 0 ↔ b = octet '0' :=
        ⟨(taken b (by simp)).2, fun same => by rw [same]; decide⟩
      rw [zeros, ne_eq, second]
      simp [List.cons_prefix_cons, eq_comm]
  · have other : c ≠ octet '0' := by
      rintro rfl
      exact zero (by decide)
    have grows := climbs_of_fits (by omega) zero fits
    simp only [grows, zeros, true_iff, List.cons_prefix_cons]
    exact fun same => other same.1.symm

/--
A size is read exactly just where it fits, opens with no two zeros and ends at an octet that is not
taken for a digit, or does not fit and the accumulator sees that.
-/
theorem chunkSize_exact_iff (some_ : s ≠ []) (digits : s.all isHexDigit = true)
    (ended : ∃ e ∈ behind, unhex e = none) :
    SizeExact s behind ∧ ChunkExact s behind ↔
      (hexValue s < 2 ^ 64 ∧ ¬octets "00" <+: s ∧ hexRun behind = []) ∨
        (2 ^ 64 ≤ hexValue s ∧ ¬SizeClimbs (s ++ behind)) := by
  obtain ⟨reads, fails⟩ := parseHex_run some_ digits ended
  -- What is done with a size follows from what is read of it.
  have chunk : SizeExact s behind → ChunkExact s behind := by
    intro exact_ d p first term
    unfold parseChunkSize
    by_cases fits : hexValue s < 2 ^ 64
    · rw [if_pos fits, exact_.1 fits]
      rfl
    · obtain ⟨it, read⟩ := exact_.2 (Nat.not_lt.mp fits)
      rw [if_neg fits, read]
      rfl
  constructor
  · rintro ⟨⟨below, above⟩, _⟩
    by_cases fits : hexValue s < 2 ^ 64
    · -- The octets behind the size are left, so none of them was taken for a digit.
      refine .inl ⟨fits, ?_⟩
      by_cases climbs : SizeClimbs (s ++ behind)
      · obtain ⟨v, e, left, text, stops, read, _⟩ := reads climbs
        have same := (below fits).symm.trans read
        simp only [Except.ok.injEq, Prod.mk.injEq] at same
        have bare : hexRun behind = [] := by
          rw [same.2, hexRun, List.takeWhile_cons_of_neg (by simp [stops])]
        exact ⟨(sizeClimbs_iff some_ digits bare fits).mp climbs, bare⟩
      · obtain ⟨left, read⟩ := fails climbs
        have same := (below fits).symm.trans read
        simp at same
    · refine .inr ⟨Nat.not_lt.mp fits, fun climbs => ?_⟩
      obtain ⟨it, read⟩ := above (Nat.not_lt.mp fits)
      obtain ⟨v, e, left, _, _, read', _⟩ := reads climbs
      have same := read.symm.trans read'
      simp at same
  · rintro (⟨fits, zeros, bare⟩ | ⟨large, stays⟩)
    · have climbs := (sizeClimbs_iff some_ digits bare fits).mpr zeros
      obtain ⟨v, e, left, text, _, read, value⟩ := reads climbs
      have exact_ : SizeExact s behind := by
        refine ⟨fun _ => ?_, fun large => absurd fits (Nat.not_lt.mpr large)⟩
        rw [bare, List.nil_append] at text
        rw [read, value bare fits, text]
      exact ⟨exact_, chunk exact_⟩
    · have exact_ : SizeExact s behind :=
        ⟨fun fits => absurd fits (Nat.not_lt.mpr large), fun _ => fails stays⟩
      exact ⟨exact_, chunk exact_⟩

/-- A size of two digits in front of a line ending is read exactly. -/
theorem chunkSize_exact_line :
    SizeExact (octets "1f") [13, 10] ∧ ChunkExact (octets "1f") [13, 10] :=
  (chunkSize_exact_iff (by decide) (by decide +kernel) ⟨13, by decide, unhex_return⟩).mpr
    (.inl (by decide +kernel))

/-- A size of two zeros is refused. -/
theorem chunkSize_two_zeros :
    octets "00" ≠ [] ∧ (octets "00").all isHexDigit = true ∧ isHexDigit 13 = false ∧
      ¬SizeExact (octets "00") [13, 10] := by
  refine ⟨by decide, by decide +kernel, by decide +kernel, fun exact_ => ?_⟩
  have read := exact_.1 (by decide +kernel)
  simp [parseHex, parseHexLoop, unhex, octets, octet] at read

end Beast.Http

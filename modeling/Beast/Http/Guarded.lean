import Beast.Http.BufferSequence
import Beast.Http.Members

/-!
The parser as it walks over memory: it stops at each step out of the octets that it may look at.

What only looks at octets that it was given as a list is taken from the parser as it is.
-/

namespace Beast.Http.Guarded

variable {d : Derived}

/-- Goes on where positions lie as they must for the octets between them to be there. -/
def inside {σ : Type} (there : Prop) [Decidable there] : Step Halt σ Unit :=
  if there then pure () else Step.stop .outside

/-- An assertion of the source. -/
def asserted {σ : Type} (holds : Prop) [Decidable holds] : Step Halt σ Unit :=
  if holds then pure () else Step.stop .assertion

/-- The loop over further decimal digits, which counts down to the end of the value and below. -/
def parseDecLoop (v : Nat) (left : Int) : Octets → Except Halt (Option Nat)
  | [] => .error .outside
  | c :: it =>
    if !isDigit c then .ok (if left = 0 then some v else none)
    else if v > ((2 ^ 64 - 1) - 10) / 10 then .ok none
    else parseDecLoop (10 * v + (c.toNat - (octet '0').toNat)) (left - 1) it

/-- Reads a decimal number of 64 bits from a value, and looks at what stands behind it. -/
def parseDec (value behind : Octets) : Except Halt (Option Nat) :=
  match value ++ behind with
  | [] => .error .outside
  | c :: it =>
    if !isDigit c then .ok none
    else parseDecLoop (c.toNat - (octet '0').toNat) (value.length - 1) it

/-- The elements of a list read one after another, in so many rounds at most. -/
def optTokensFrom : Nat → Bool → Octets → Except Halt (Option (List Octets))
  | 0, _, _ => .error .outside
  | fuel + 1, needComma, it =>
    match nextOptToken needComma it with
    | .error _ => .ok none
    | .ok none => .ok (some [])
    | .ok (some p0) =>
      (optTokensFrom fuel true (skipToken p0)).map (Option.map (p0.takeWhile isTchar :: ·))

/-- The elements of a list, or nothing where the list is malformed. -/
def optTokenList (s : Octets) : Except Halt (Option (List Octets)) :=
  optTokensFrom (s.length + 1) false s

/-- The tokens read one after another, in so many rounds at most. -/
def tokensFrom : Nat → Bool → Octets → Except Halt (List Octets)
  | 0, _, _ => .error .outside
  | fuel + 1, needComma, it =>
    match nextToken needComma it with
    | none => .ok []
    | some p0 => (tokensFrom fuel true (skipToken p0)).map (p0.takeWhile isTchar :: ·)

/-- The tokens of a field value, up to the first fault. -/
def tokenList (s : Octets) : Except Halt (List Octets) :=
  tokensFrom (s.length + 1) false s

/-- Takes note of a field whose value lies in front of other octets. -/
def doField (name value behind : Octets) : MessageStep d Unit := do
  let self ← get
  if strieq "connection" name || strieq "proxy-connection" name then
    match ← Step.lift (optTokenList value) with
    | none => fail .bad_value
    | some list => setFlags fun f => list.foldl connectionToken f
  else if !value.all isText then fail .bad_value
  else if strieq "content-length" name then
    if self.f_.flagContentLength then fail .bad_content_length
    else if self.f_.flagChunked then fail .bad_content_length
    else match ← Step.lift (parseDec value behind) with
      | none => fail .bad_content_length
      | some v =>
        modify fun self => { self with len_ := v }
        setFlags fun f => { f with flagContentLength := true }
  else if strieq "transfer-encoding" name then
    if self.f_.flagChunked then fail .bad_transfer_encoding
    else if self.f_.flagContentLength then fail .bad_transfer_encoding
    else match (← Step.lift (tokenList value)).dropWhile (fun s => !strieq "chunked" s) with
      | [_] =>
        modify fun self => { self with len_ := 0 }
        setFlags fun f => { f with flagChunked := true }
      | _ => return
  else if strieq "upgrade" name then
    setFlags fun f => { f with flagUpgrade := true }

/-- Joins the continuation lines of a value to it, each behind a single space. -/
def joinFolds : Nat → Octets → Octets → MessageStep d (Octets × Octets)
  | 0, _, _ => Step.stop .outside
  | fuel + 1, s, it => do
    if !(← isFold it) then return (s, it)
    -- The end that the source passes here lies in front of the position, and stops nothing.
    let (_, it) ← Step.lift (readWhile isOws it)
    let (line, it) ← readLine it
    joinFolds fuel (s ++ [octet ' '] ++ line) it

/-- Reads fields up to the empty line behind them, and returns what follows it. -/
def parseFields : Nat → Octets → MessageStep d Octets
  | 0, _ => Step.stop .outside
  | fuel + 1, it => do
    let (line, term) ← readLine it
    if line.isEmpty then return term
    let (name, p) ← Step.lift (parseName it)
    if name.isEmpty then fail .bad_field
    let (true, p) ← Step.lift (readOctet (octet ':') p) | fail .bad_field
    inside (it.length - p.length ≤ line.length)
    let content := line.drop (it.length - p.length)
    if !(← isFold term) then
      let value := trim content
      doField name value (p.drop (content.length - (skipOws content).length + value.length))
      invoke (.on_field name value)
      parseFields fuel term
    else
      let (line, it) ← skipFolds (term.length + 1) content term
      let (value, it) ←
        if line.isEmpty then pure ([], it) else joinFolds (it.length + 1) line it
      -- The joined value is a string of its own, with a null octet behind it.
      doField name value [0]
      invoke (.on_field name value)
      parseFields fuel it

/-- Reads a whole header, from its start line to the empty line. -/
def parseHeaderBlock (isRequest : Bool) (block : Octets) : MessageStep d Unit := do
  let (version, status, it) ← parseStartline isRequest block
  if version ≥ 11 then
    setFlags fun f => { f with flagHTTP11 := true }
  let it ← parseFields (it.length + 1) it
  asserted (it = [])
  doHeader isRequest status
  invoke .on_header
  if (← get).state_ == .complete then
    invoke .on_complete

/-- Parses the header once it is there as a whole. -/
def parseHeader (isRequest : Bool) (p : Octets) : ParserStep d Nat := do
  let self ← get
  if p.length < 4 then return 0
  else do
    inside (self.skip_ ≤ p.length)
    match findEom (p.drop self.skip_) with
    | .bad => fail .bad_line_ending
    | .need => do
      set { self with skip_ := p.length - 3 }
      return 0
    | .found k => do
      let n := self.skip_ + k
      set { self with skip_ := 0 }
      onMessage (parseHeaderBlock isRequest (p.take n))
      return n

/-- Reads the extension, the line ending and the trailer behind the size of the last chunk. -/
def parseTrailer (block : Octets) (offset x : Nat) : MessageStep d Unit := do
  let c ← Step.lift (peek (block.drop offset))
  let p ←
    if c == octet ';' then do
      inside (offset ≤ x ∧ x ≤ block.length)
      let ext := (block.take x).drop offset
      modify fun self => { self with ext_ := ext }
      invoke (.on_chunk 0 ext)
      pure (block.drop x)
    else pure (block.drop offset)
  let (true, p) ← Step.lift (parseCrlf p) | fail .bad_chunk
  let p ← parseFields (p.length + 1) p
  asserted (p = [])
  doComplete

/-- Parses the last chunk and the trailer behind it, once they are there as a whole. -/
def parseLastChunk (first : Octets) (n offset : Nat) : ParserStep d Nat := do
  let self ← get
  inside (self.skip_ ≤ first.length)
  match findEom (first.drop self.skip_) with
  | .bad => fail .bad_line_ending
  | .need =>
    if n > 3 then do
      set { self with skip_ := first.length - 3 }
      return 0
    else return 0
  | .found k => do
    let term := self.skip_ + k
    onMessage (parseTrailer (first.take term) offset self.x_)
    return term

/-- Opens a chunk of some size, whose line ends at an offset from its start. -/
def openChunk (p it : Octets) (v term : Nat) : MessageStep d Unit := do
  let offset := p.length - it.length
  let c ← Step.lift (peek it)
  if c == octet ';' then do
    inside (offset ≤ term - 2)
    let ext := (p.take (term - 2)).drop offset
    modify fun self => { self with ext_ := ext }
    invoke (.on_chunk v ext)
  else if offset != term - 2 then fail .bad_chunk
  modify fun self =>
    { self with
      len_ := v
      f_ := { self.f_ with flagExpectCRLF := true }
      state_ := .chunk_body }

/-- Parses the size and the extension of a chunk whose line is there as a whole. -/
def parseChunkSize (first p : Octets) (term : Nat) : ParserStep d Nat := do
  let (some v, it) ← Step.lift (parseHex p) | fail .bad_chunk
  let start := first.length - p.length
  if v != 0 then do
    onMessage (openChunk p it v term)
    modify fun self => { self with skip_ := 0 }
    return start + term
  else do
    let x := start + term - 2
    modify fun self => { self with x_ := x, skip_ := x }
    onMessage (setFlags fun f => { f with flagFinalChunk := true })
    parseLastChunk first p.length (first.length - it.length)

/-- Parses the header of a chunk behind the line ending of the chunk before it. -/
def parseChunkLine (first p : Octets) : ParserStep d Nat := do
  let self ← get
  if !self.f_.flagFinalChunk then
    if p.length < 2 then return 0
    else do
      inside (self.skip_ ≤ p.length)
      match findEol (p.drop self.skip_) with
      | .bad => fail .bad_line_ending
      | .need => do
        set { self with skip_ := p.length - 1 }
        return 0
      | .found k => parseChunkSize first p (self.skip_ + k)
  else do
    let (some 0, it) ← Step.lift (parseHex p) | Step.stop .assertion
    parseLastChunk first p.length (first.length - it.length)

/-- Parses the header of a chunk, and the line ending of the chunk before it. -/
def parseChunkHeader (first : Octets) : ParserStep d Nat := do
  let self ← get
  if self.f_.flagExpectCRLF then
    if first.length < 2 then return 0
    else do
      let (true, p) ← Step.lift (parseCrlf first) | fail .bad_chunk
      parseChunkLine first p
  else parseChunkLine first first

/-- Parses as much of one contiguous buffer as can be consumed now, and returns its size. -/
def write (isRequest : Bool) (buffer : Octets) : ParserStep d Nat := do
  let self ← get
  match self.state_ with
  | .header => do
    onMessage (setFlags fun f => { f with flagGotSome := f.flagGotSome || buffer.length > 0 })
    parseHeader isRequest buffer
  | .body => do
    onMessage maybeDoBodyIndirect
    parseBody buffer
  | .body_to_eof => do
    onMessage maybeDoBodyIndirect
    parseBodyToEof buffer
  | .chunk_header => do
    onMessage maybeDoBodyIndirect
    parseChunkHeader buffer
  | .chunk_body => parseChunkBody buffer
  | .complete => return 0

/-- Parses the header of the message or of a chunk with a direct parser. -/
def writeDirect (isRequest : Bool) (buffer : Octets) : ParserStep d Nat := do
  let self ← get
  if self.state_ == .header then
    onMessage (setFlags fun f => { f with flagGotSome := f.flagGotSome || buffer.length > 0 })
    parseHeader isRequest buffer
  else
    onMessage maybeDoBodyDirect
    parseChunkHeader buffer

/-- Parses as much of a sequence of buffers as can be consumed now, and returns its size. -/
def writeSequence (isRequest isDirect : Bool) (buffers : List Octets) :
    Step Halt (FlatParser d) Nat :=
  fun self =>
    let flat := maybeFlatten self.buf_ buffers
    let wrote := Step.run
      (if isDirect then writeDirect isRequest flat.1 else write isRequest flat.1)
      self.toBasicParser
    (wrote.1, { wrote.2 with buf_ := flat.2 })

end Beast.Http.Guarded

import Beast.Lib.Step
import Beast.Http.BasicParserBase

/-! The incremental parser of HTTP messages, as it calls into the class derived from it. -/

namespace Beast.Http

/-- The calls that the parser makes to the derived class. -/
inductive Callback
  | on_request (method target : Octets) (version : Nat)
  | on_response (status : Nat) (reason : Octets) (version : Nat)
  | on_field (name value : Octets)
  | on_header
  | on_body (content_length : Option Nat)
  | on_data (s : Octets)
  | on_chunk (n : Nat) (ext : Octets)
  | on_complete
  deriving DecidableEq, Repr

/-- A derived class: its own state, and what a call does to it and reports. -/
structure Derived where
  State : Type
  call : State → Callback → State × Option ErrorCode

/-- What octets the parser expects next. -/
inductive ParseState
  | header | body | body_to_eof | chunk_header | chunk_body | complete
  deriving DecidableEq, Repr

/-- The flags of the parser. -/
structure Flags where
  flagSkipBody : Bool := false
  flagOnBody : Bool := false
  flagGotSome : Bool := false
  flagHasBody : Bool := false
  flagHTTP11 : Bool := false
  flagNeedEOF : Bool := false
  flagExpectCRLF : Bool := false
  flagFinalChunk : Bool := false
  flagConnectionClose : Bool := false
  flagConnectionUpgrade : Bool := false
  flagConnectionKeepAlive : Bool := false
  flagContentLength : Bool := false
  flagChunked : Bool := false
  flagUpgrade : Bool := false
  deriving DecidableEq, Repr

/-- The part of a parser's state that a message is read into, with the derived class. -/
structure Message (d : Derived) where
  /-- The size of the chunk or body, or what is left of it. -/
  len_ : Nat
  f_ : Flags := {}
  state_ : ParseState := .header
  ext_ : Octets := []
  impl : d.State

/-- The state of a parser: the message, and what it remembers from one buffer to the next. -/
structure BasicParser (d : Derived) extends Message d where
  /-- Where the next search starts. -/
  skip_ : Nat := 0
  /-- The offset of the line ending behind the size of the last chunk. -/
  x_ : Nat
  body_ : Octets := []

/-- A step on the message alone. -/
abbrev MessageStep (d : Derived) := Step Halt (Message d)

/-- A step on the whole state of the parser. -/
abbrev ParserStep (d : Derived) := Step Halt (BasicParser d)

variable {d : Derived}

/-- Stops with an error code. -/
def fail {σ α : Type} (code : ErrorCode) : Step Halt σ α := Step.stop (.ec code)

/-- A step on the message, as a step of the parser. -/
def onMessage {α : Type} (m : MessageStep d α) : ParserStep d α :=
  Step.zoom BasicParser.toMessage (fun self message => { self with toMessage := message }) m

/-- Changes the flags. -/
def setFlags (f : Flags → Flags) : MessageStep d Unit :=
  modify fun self => { self with f_ := f self.f_ }

/-- Calls the derived class, and stops with the error code that it reports. -/
def invoke (c : Callback) : MessageStep d Unit := fun self =>
  let (state, ec) := d.call self.impl c
  let self := { self with impl := state }
  match ec with
  | none => (.ok (), self)
  | some ec => (.error (.ec ec), self)

/-- Reads a request line. -/
def parseRequestLine (it : Octets) : MessageStep d (Nat × Octets) := do
  let (method, it) ← Step.lift (parseMethod it)
  if method.isEmpty then fail .bad_method
  let (true, it) ← Step.lift (readOctet (octet ' ') it) | fail .bad_method
  let (target, it) ← Step.lift (parseTarget it)
  if target.isEmpty then fail .bad_path
  let (true, it) ← Step.lift (readOctet (octet ' ') it) | fail .bad_path
  let (some version, it) ← Step.lift (parseVersion it) | fail .bad_version
  let (true, it) ← Step.lift (parseCrlf it) | fail .bad_version
  invoke (.on_request method target version)
  return (version, it)

/-- Reads a status line. -/
def parseStatusLine (it : Octets) : MessageStep d (Nat × Nat × Octets) := do
  let (some version, it) ← Step.lift (parseVersion it) | fail .bad_version
  let (true, it) ← Step.lift (readOctet (octet ' ') it) | fail .bad_version
  let (some status, it) ← Step.lift (parseStatus it) | fail .bad_status
  let (true, it) ← Step.lift (readOctet (octet ' ') it) | fail .bad_status
  let (reason, it) ← Step.lift (parseReason it)
  let (true, it) ← Step.lift (parseCrlf it) | fail .bad_reason
  invoke (.on_response status reason version)
  return (version, status, it)

/-- Reads the start line: its version, its status where it has one, and the octets behind it. -/
def parseStartline (isRequest : Bool) (it : Octets) : MessageStep d (Nat × Nat × Octets) :=
  if isRequest then do
    let (version, it) ← parseRequestLine it
    return (version, 0, it)
  else parseStatusLine it

/-- The flags that a token of a connection field sets. -/
def connectionToken (f : Flags) (s : Octets) : Flags :=
  if strieq "close" s then { f with flagConnectionClose := true }
  else if strieq "keep-alive" s then { f with flagConnectionKeepAlive := true }
  else if strieq "upgrade" s then { f with flagConnectionUpgrade := true }
  else f

/-- Moves to the token of the next list element, if there is one, or finds the list malformed. -/
def nextOptToken (needComma : Bool) : Octets → Except Unit (Option Octets)
  | [] => .ok none
  | c :: it =>
    if isOws c then nextOptToken needComma it
    else if isTchar c then
      if needComma then .error () else .ok (some (c :: it))
    else if c != octet ',' then .error ()
    else nextOptToken false it

/-- The elements of a list read one after another, or nothing where the list is malformed. -/
def optTokensFrom : Nat → Bool → Octets → Option (List Octets)
  | 0, _, _ => some []
  | fuel + 1, needComma, it =>
    match nextOptToken needComma it with
    | .error _ => none
    | .ok none => some []
    | .ok (some p0) => (optTokensFrom fuel true (skipToken p0)).map (p0.takeWhile isTchar :: ·)

/-- The elements of a list, or nothing where the list is malformed. -/
def optTokenList (s : Octets) : Option (List Octets) :=
  optTokensFrom (s.length + 1) false s

/-- Takes note of a field that says how the message goes on. -/
def doField (name value : Octets) : MessageStep d Unit := do
  let self ← get
  if strieq "connection" name || strieq "proxy-connection" name then
    match optTokenList value with
    | none => fail .bad_value
    | some list => setFlags fun f => list.foldl connectionToken f
  else if !value.all isText then fail .bad_value
  else if strieq "content-length" name then
    if self.f_.flagContentLength then fail .bad_content_length
    else if self.f_.flagChunked then fail .bad_content_length
    else match parseDec value with
      | none => fail .bad_content_length
      | some v =>
        modify fun self => { self with len_ := v }
        setFlags fun f => { f with flagContentLength := true }
  else if strieq "transfer-encoding" name then
    if self.f_.flagChunked then fail .bad_transfer_encoding
    else if self.f_.flagContentLength then fail .bad_transfer_encoding
    else match (tokenList value).dropWhile (fun s => !strieq "chunked" s) with
      | [_] =>
        modify fun self => { self with len_ := 0 }
        setFlags fun f => { f with flagChunked := true }
      -- Without the coding, or with another one behind it, the field is passed over.
      | _ => return
  else if strieq "upgrade" name then
    setFlags fun f => { f with flagUpgrade := true }

/-- Finds the end of the line at a position, and splits the line off. -/
def readLine (it : Octets) : MessageStep d (Octets × Octets) :=
  match findEol it with
  | .bad => fail .bad_line_ending
  | .need => Step.stop .outside
  | .found k => return (it.take (k - 2), it.drop k)

/-- Whether the octet at a position opens the continuation of a folded line. -/
def isFold (it : Octets) : MessageStep d Bool := do
  return isOws (← Step.lift (peek it))

/--
Moves past continuation lines of white space, to the first line that holds anything else.

The result is that line and what follows it, or nothing and the next field.
-/
def skipFolds : Nat → Octets → Octets → MessageStep d (Octets × Octets)
  | 0, _, _ => Step.stop .outside
  | fuel + 1, line, it => do
    let line := skipOws line
    if !line.isEmpty then return (line, it)
    if !(← isFold it) then return ([], it)
    let (line, it) ← readLine it
    skipFolds fuel line it

/-- Joins the continuation lines of a value to it, each behind a single space. -/
def joinFolds : Nat → Octets → Octets → MessageStep d (Octets × Octets)
  | 0, _, _ => Step.stop .outside
  | fuel + 1, s, it => do
    if !(← isFold it) then return (s, it)
    let (line, it) ← readLine (skipOws it)
    joinFolds fuel (s ++ [octet ' '] ++ line) it

/-- Reads fields up to the empty line behind them, and returns what follows it. -/
def parseFields : Nat → Octets → MessageStep d Octets
  | 0, _ => Step.stop .outside
  | fuel + 1, it => do
    let (line, term) ← readLine it
    if line.isEmpty then return term
    let (name, it) ← Step.lift (parseName it)
    if name.isEmpty then fail .bad_field
    let (true, _) ← Step.lift (readOctet (octet ':') it) | fail .bad_field
    let content := line.drop (name.length + 1)
    if !(← isFold term) then
      let value := trim content
      doField name value
      invoke (.on_field name value)
      parseFields fuel term
    else
      let (line, it) ← skipFolds (term.length + 1) content term
      let (value, it) ←
        if line.isEmpty then pure ([], it) else joinFolds (it.length + 1) line it
      doField name value
      invoke (.on_field name value)
      parseFields fuel it

/-- Decides from the fields of a request how it goes on. -/
def doHeaderRequest : MessageStep d Unit := do
  let self ← get
  if self.f_.flagSkipBody then
    modify fun self => { self with state_ := .complete }
  else if self.f_.flagContentLength then
    if self.len_ > 0 then
      setFlags fun f => { f with flagHasBody := true }
      modify fun self => { self with state_ := .body }
    else modify fun self => { self with state_ := .complete }
  else if self.f_.flagChunked then
    setFlags fun f => { f with flagHasBody := true }
    modify fun self => { self with state_ := .chunk_header }
  else modify fun self => { self with len_ := 0, state_ := .complete }

/-- Decides from the status and the fields of a response how it goes on. -/
def doHeaderResponse (status : Nat) : MessageStep d Unit := do
  let self ← get
  if self.f_.flagSkipBody || status / 100 == 1 || status == 204 || status == 304 then
    modify fun self => { self with state_ := .complete }
  else if self.f_.flagContentLength then
    if self.len_ > 0 then
      setFlags fun f => { f with flagHasBody := true }
      modify fun self => { self with state_ := .body }
    else modify fun self => { self with state_ := .complete }
  else if self.f_.flagChunked then
    setFlags fun f => { f with flagHasBody := true }
    modify fun self => { self with state_ := .chunk_header }
  else
    setFlags fun f => { f with flagHasBody := true }
    setFlags fun f => { f with flagNeedEOF := true }
    modify fun self => { self with state_ := .body_to_eof }

/-- Decides from the header how the message goes on. -/
def doHeader (isRequest : Bool) (status : Nat) : MessageStep d Unit :=
  if isRequest then doHeaderRequest else doHeaderResponse status

/-- Reads a whole header, from its start line to the empty line. -/
def parseHeaderBlock (isRequest : Bool) (block : Octets) : MessageStep d Unit := do
  let (version, status, it) ← parseStartline isRequest block
  if version ≥ 11 then
    setFlags fun f => { f with flagHTTP11 := true }
  let _ ← parseFields (it.length + 1) it
  doHeader isRequest status
  invoke .on_header
  if (← get).state_ == .complete then
    invoke .on_complete

/-- Parses the header once it is there as a whole. -/
def parseHeader (isRequest : Bool) (p : Octets) : ParserStep d Nat := do
  let self ← get
  if p.length < 4 then return 0
  else match findEom (p.drop self.skip_) with
    | .bad => fail .bad_line_ending
    | .need => do
      set { self with skip_ := p.length - 3 }
      return 0
    | .found k => do
      let n := self.skip_ + k
      set { self with skip_ := 0 }
      onMessage (parseHeaderBlock isRequest (p.take n))
      return n

/-- Announces the body, once. -/
def maybeDoBodyIndirect : MessageStep d Unit := do
  let self ← get
  if self.f_.flagOnBody then return
  else do
    setFlags fun f => { f with flagOnBody := true }
    if self.f_.flagContentLength then invoke (.on_body (some self.len_))
    else invoke (.on_body none)

/-- Completes the message. -/
def doComplete : MessageStep d Unit := do
  invoke .on_complete
  modify fun self => { self with state_ := .complete }

/-- Reads the extension, the line ending and the trailer behind the size of the last chunk. -/
def parseTrailer (block : Octets) (offset x : Nat) : MessageStep d Unit := do
  let c ← Step.lift (peek (block.drop offset))
  let p ←
    if c == octet ';' then do
      let ext := (block.take x).drop offset
      modify fun self => { self with ext_ := ext }
      invoke (.on_chunk 0 ext)
      pure (block.drop x)
    else pure (block.drop offset)
  let (true, p) ← Step.lift (parseCrlf p) | fail .bad_chunk
  let _ ← parseFields (p.length + 1) p
  doComplete

/-- Parses the last chunk and the trailer behind it, once they are there as a whole. -/
def parseLastChunk (first : Octets) (n offset : Nat) : ParserStep d Nat := do
  let self ← get
  match findEom (first.drop self.skip_) with
  | .bad => fail .bad_line_ending
  | .need =>
    if n > 3 then do
      set { self with skip_ := first.length - 3 }
      return 0
    else return 0
  | .found k => do
    let term := self.skip_ + k
    onMessage (parseTrailer (first.take term) offset self.x_)
    return term

/-- Opens a chunk of some size, whose line ends at an offset from its start. -/
def openChunk (p it : Octets) (v term : Nat) : MessageStep d Unit := do
  let offset := p.length - it.length
  let c ← Step.lift (peek it)
  if c == octet ';' then do
    let ext := (p.take (term - 2)).drop offset
    modify fun self => { self with ext_ := ext }
    invoke (.on_chunk v ext)
  else if offset != term - 2 then fail .bad_chunk
  modify fun self =>
    { self with
      len_ := v
      f_ := { self.f_ with flagExpectCRLF := true }
      state_ := .chunk_body }

/-- Parses the size and the extension of a chunk whose line is there as a whole. -/
def parseChunkSize (first p : Octets) (term : Nat) : ParserStep d Nat := do
  let (some v, it) ← Step.lift (parseHex p) | fail .bad_chunk
  -- Positions in the source are offsets here: from the presented octets, and from the size.
  let start := first.length - p.length
  if v != 0 then do
    onMessage (openChunk p it v term)
    modify fun self => { self with skip_ := 0 }
    return start + term
  else do
    let x := start + term - 2
    modify fun self => { self with x_ := x, skip_ := x }
    onMessage (setFlags fun f => { f with flagFinalChunk := true })
    parseLastChunk first p.length (first.length - it.length)

/-- Parses the header of a chunk behind the line ending of the chunk before it. -/
def parseChunkLine (first p : Octets) : ParserStep d Nat := do
  let self ← get
  if !self.f_.flagFinalChunk then
    if p.length < 2 then return 0
    else match findEol (p.drop self.skip_) with
      | .bad => fail .bad_line_ending
      | .need => do
        set { self with skip_ := p.length - 1 }
        return 0
      | .found k => parseChunkSize first p (self.skip_ + k)
  else do
    -- The size is read again, to find the position behind it.
    let (some 0, it) ← Step.lift (parseHex p) | Step.stop .outside
    parseLastChunk first p.length (first.length - it.length)

/-- Parses the header of a chunk, and the line ending of the chunk before it. -/
def parseChunkHeader (first : Octets) : ParserStep d Nat := do
  let self ← get
  if self.f_.flagExpectCRLF then
    if first.length < 2 then return 0
    else do
      let (true, p) ← Step.lift (parseCrlf first) | fail .bad_chunk
      parseChunkLine first p
  else parseChunkLine first first

/-- Passes on octets of a body or chunk, and counts them off what is left of it. -/
def passData (body : Octets) : MessageStep d Unit := do
  invoke (.on_data body)
  modify fun self => { self with len_ := self.len_ - body.length }

/-- Passes on as much of the body as is there. -/
def parseBody (p : Octets) : ParserStep d Nat := do
  let self ← get
  let n := min self.len_ p.length
  let body := p.take n
  set { self with body_ := body }
  onMessage (passData body)
  if (← get).len_ == 0 then do
    onMessage doComplete
    return n
  else return n

/-- Passes on octets of a body that only ends with the stream. -/
def parseBodyToEof (p : Octets) : ParserStep d Nat := do
  modify fun self => { self with body_ := p }
  onMessage (invoke (.on_data p))
  return p.length

/-- Passes on as much of a chunk as is there. -/
def parseChunkBody (p : Octets) : ParserStep d Nat := do
  let self ← get
  let n := min self.len_ p.length
  let body := p.take n
  set { self with body_ := body }
  onMessage (passData body)
  if (← get).len_ == 0 then do
    modify fun self => { self with body_ := [], state_ := .chunk_header }
    return n
  else return n

/-- Parses as much of one contiguous buffer as can be consumed now, and returns its size. -/
def write (isRequest : Bool) (buffer : Octets) : ParserStep d Nat := do
  let self ← get
  match self.state_ with
  | .header => do
    onMessage (setFlags fun f => { f with flagGotSome := f.flagGotSome || buffer.length > 0 })
    parseHeader isRequest buffer
  | .body => do
    onMessage maybeDoBodyIndirect
    parseBody buffer
  | .body_to_eof => do
    onMessage maybeDoBodyIndirect
    parseBodyToEof buffer
  | .chunk_header => do
    onMessage maybeDoBodyIndirect
    parseChunkHeader buffer
  | .chunk_body => parseChunkBody buffer
  | .complete => return 0

/-- Sets the option to expect no body, before any octet. -/
def skipBody : ParserStep d Unit :=
  onMessage (setFlags fun f => { f with flagSkipBody := true })

end Beast.Http

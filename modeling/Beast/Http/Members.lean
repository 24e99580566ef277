import Beast.Http.BasicParser

/-! The entry points of the parser next to the one for octets, and those of direct parsers. -/

namespace Beast.Http

variable {d : Derived}

/-- Whether any octet was parsed. -/
def gotSome (p : BasicParser d) : Bool := p.f_.flagGotSome

/-- Whether the message is complete. -/
def isComplete (p : BasicParser d) : Bool := p.state_ == .complete

/-- Tells the parser that no octets follow. -/
def writeEof : ParserStep d Unit := do
  let self ← get
  if self.state_ == .header then fail .partial_message
  else if self.f_.flagContentLength || self.f_.flagChunked then
    if self.state_ != .complete then fail .partial_message
  else onMessage doComplete

/-- Tells the parser that octets of the body were consumed without it. -/
def consume (n : Nat) : ParserStep d Unit :=
  modify fun self =>
    let self := { self with len_ := self.len_ - n }
    if self.len_ = 0 then
      if self.state_ == .body then { self with state_ := .complete }
      else { self with state_ := .chunk_header }
    else self

/-- Calls the derived class, which cannot report an error, and throws where it refuses the call. -/
def tell (c : Callback) : MessageStep d Unit := fun self =>
  let (state, ec) := d.call self.impl c
  let self := { self with impl := state }
  match ec with
  | none => (.ok (), self)
  | some _ => (.error .length_error, self)

/-- Announces the body of a direct parser, once. -/
def maybeDoBodyDirect : MessageStep d Unit := do
  let self ← get
  if self.f_.flagOnBody then return
  else do
    setFlags fun f => { f with flagOnBody := true }
    if self.f_.flagContentLength then tell (.on_body (some self.len_))
    else tell (.on_body none)

/-- Parses the header of the message or of a chunk with a direct parser. -/
def writeDirect (isRequest : Bool) (buffer : Octets) : ParserStep d Nat := do
  let self ← get
  if self.state_ == .header then
    onMessage (setFlags fun f => { f with flagGotSome := f.flagGotSome || buffer.length > 0 })
    parseHeader isRequest buffer
  else
    onMessage maybeDoBodyDirect
    parseChunkHeader buffer

end Beast.Http

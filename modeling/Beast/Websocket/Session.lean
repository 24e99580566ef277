import Beast.Websocket.Executor

/-! Sessions of one stream: how one starts, and what its user and the service below it do in it. -/

namespace Beast.Websocket

variable {lib : Lib}

namespace StreamBase

/-- What accepting a session, or asking for one, leaves of the state of an earlier one. -/
def renew (ws : StreamBase lib) (keys : Nat → UInt32) (config : PmdOffer) (role : RoleType) :
    StreamBase lib :=
  -- The mask keys are those that the stream goes on to draw.
  { ws.reset with maskgen_ := keys, pmd_config_ := config }.open_ role

end StreamBase

/-- Sends a close frame. -/
def closeFrame (cr : CloseReason) : WriteStep lib Unit := do
  onSender fun ws => { ws with wr_close_ := true }
  let (frame, ws) := (← get).ws.writeClose cr
  onSender fun _ => ws
  send frame

/-- Sends a ping or pong frame, which says nothing about the connection. -/
def pingFrame (op : Opcode) (payload : Octets) : WriteStep lib Unit := do
  let (frame, ws) := (← get).ws.writePing op payload
  onSender fun _ => ws
  let (ec, layer) := (← get).layer.write frame
  modify fun c => { c with layer }
  match ec with
  | none => return
  | some ec => Step.stop ec

/-- An option that is set while a session lasts. -/
inductive SetOption
  | auto_fragment (value : Bool)
  | message_type (value : Opcode)
  | read_buffer_size (value : Nat)
  | read_message_max (value : UInt64)
  | write_buffer_size (value : Nat)
  deriving DecidableEq, Repr

/-- Sets an option. -/
def StreamBase.setOption (ws : StreamBase lib) : SetOption → StreamBase lib
  | .auto_fragment value => { ws with wr_autofrag_ := value }
  | .message_type value => { ws with wr_opcode_ := value }
  | .read_buffer_size value => { ws with rd_buf_size_ := value }
  | .read_message_max value => { ws with rd_msg_max_ := value }
  | .write_buffer_size value => { ws with wr_buf_size_ := value }

/-- What is done next in a session: a call that waits, or an event of an operation that does not. -/
inductive Act
  | readFrame
  | readMessage
  | writeFrame (fin : Bool) (buffers : Octets)
  | close (cr : CloseReason)
  | ping (op : Opcode) (payload : Octets)
  | setOption (o : SetOption)
  | event (e : Event)
  deriving DecidableEq, Repr

/-- What an act comes to. -/
inductive Outcome
  | frame (r : Except ErrorCode FrameInfo)
  | message (r : Except ErrorCode Opcode)
  | wrote (r : Except ErrorCode Unit)
  | set
  | event (r : Except Fault Unit)

/-- A stream in a session: with its operations, and with the stream below as its calls see it. -/
structure Session (lib : Lib) where
  async : Async lib
  layer : NextLayer

namespace Session

/-- The stream as a call that waits sees it. -/
def conn (s : Session lib) : Conn lib :=
  { ws := s.async.ws, layer := s.layer, db := s.async.db }

/-- The session behind a call that waits. -/
def behind (s : Session lib) (c : Conn lib) : Session lib :=
  { async := { s.async with ws := c.ws, db := c.db }, layer := c.layer }

/-- What an act does. -/
def play (s : Session lib) : Act → Outcome × Session lib
  | .readFrame => (.frame (readFrame s.conn).1, s.behind (readFrame s.conn).2)
  | .readMessage => (.message (readMessage s.conn).1, s.behind (readMessage s.conn).2)
  | .writeFrame fin buffers =>
    (.wrote (Step.run (writeFrame fin buffers) s.conn).1,
      s.behind (Step.run (writeFrame fin buffers) s.conn).2)
  | .close cr =>
    (.wrote (Step.run (closeFrame cr) s.conn).1, s.behind (Step.run (closeFrame cr) s.conn).2)
  | .ping op payload =>
    (.wrote (Step.run (pingFrame op payload) s.conn).1,
      s.behind (Step.run (pingFrame op payload) s.conn).2)
  | .setOption o => (.set, { s with async := { s.async with ws := s.async.ws.setOption o } })
  | .event e =>
    (.event (Step.run (Async.step e) s.async).1,
      { s with async := (Step.run (Async.step e) s.async).2 })

/-- What a series of acts comes to, one after another, and the session behind them. -/
def plays (s : Session lib) : List Act → List Outcome × Session lib
  | [] => ([], s)
  | a :: acts =>
    let (r, s) := s.play a
    let (rs, s) := s.plays acts
    (r :: rs, s)

end Session

/-- What the other side and the user see of a session. -/
structure Seen where
  /-- What every act came to. -/
  outcomes : List Outcome
  /-- What was delivered to the buffer of the reader. -/
  db : Octets
  /-- What calls that wait wrote. -/
  written : List Octets
  /-- What operations that do not wait wrote, and the handlers that were called. -/
  sent : List Sent
  called : List Called

/-- Starts a session over a stream below. -/
def Async.renew (s : Async lib) (keys : Nat → UInt32) (config : PmdOffer) (role : RoleType)
    (layer : NextLayer) : Session lib :=
  { async := { s with ws := s.ws.renew keys config role, db := [], sent := [], called := [] }
    layer }

/-- What is seen of a session in which some acts are done. -/
def Session.seen (s : Session lib) (acts : List Act) : Seen :=
  { outcomes := (s.plays acts).1
    db := (s.plays acts).2.async.db
    written := (s.plays acts).2.layer.sent
    sent := (s.plays acts).2.async.sent
    called := (s.plays acts).2.async.called }

/-- An earlier session: how it started, and what was done in it. -/
structure Past where
  keys : Nat → UInt32
  config : PmdOffer
  role : RoleType
  layer : NextLayer
  acts : List Act

/-- The stream behind a series of sessions. -/
def Async.after (s : Async lib) : List Past → Async lib
  | [] => s
  | p :: past => ((s.renew p.keys p.config p.role p.layer).plays p.acts).2.async.after past

end Beast.Websocket

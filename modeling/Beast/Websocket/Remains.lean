import Beast.Websocket.ReadFrameLaws
import Beast.Websocket.WriteFrame

/-! What an earlier session may leave in a stream, and what the next one does not look at. -/

namespace Beast.Websocket

variable {lib : Lib}

/-- Two checkers are alike when no text tells them apart. -/
def Lib.Alike (lib : Lib) (one other : lib.Utf8) : Prop :=
  ∃ rel : lib.Utf8 → lib.Utf8 → Prop, rel one other ∧
    (∀ u v text, rel u v → (lib.utf8_write v text).1 = (lib.utf8_write u text).1 ∧
      rel (lib.utf8_write u text).2 (lib.utf8_write v text).2) ∧
    ∀ u v, rel u v → (lib.utf8_finish v).1 = (lib.utf8_finish u).1 ∧
      rel (lib.utf8_finish u).2 (lib.utf8_finish v).2

namespace Lib.Alike

theorem refl (utf8 : lib.Utf8) : lib.Alike utf8 utf8 := by
  refine ⟨Eq, rfl, ?_, ?_⟩
  · rintro u _ text rfl
    exact ⟨rfl, rfl⟩
  · rintro u _ rfl
    exact ⟨rfl, rfl⟩

theorem write {u v : lib.Utf8} (alike : lib.Alike u v) (text : Octets) :
    (lib.utf8_write v text).1 = (lib.utf8_write u text).1 ∧
      lib.Alike (lib.utf8_write u text).2 (lib.utf8_write v text).2 := by
  obtain ⟨rel, related, writes, finishes⟩ := alike
  exact ⟨(writes u v text related).1, rel, (writes u v text related).2, writes, finishes⟩

theorem finish {u v : lib.Utf8} (alike : lib.Alike u v) :
    (lib.utf8_finish v).1 = (lib.utf8_finish u).1 ∧
      lib.Alike (lib.utf8_finish u).2 (lib.utf8_finish v).2 := by
  obtain ⟨rel, related, writes, finishes⟩ := alike
  exact ⟨(finishes u v related).1, rel, (finishes u v related).2, writes, finishes⟩

end Lib.Alike

/-- What starting a session leaves of an earlier one. -/
structure Remains (lib : Lib) where
  utf8 : lib.Utf8
  op : Opcode
  size : UInt64
  buf_size : Nat
  buf : Bool
  wr : Wr
  cr : CloseReason

/-- How far a session went, as far as it covers what remains of an earlier one. -/
structure Progress where
  /-- Whether the header of a data frame was read. -/
  headed : Bool := false
  /-- Whether the read buffer was seen to. -/
  buffered : Bool := false
  /-- Whether a message was begun by the writer. -/
  written : Bool := false

namespace StreamBase

/-- The stream with other remains. -/
def overlay (ws : StreamBase lib) (x : Remains lib) : StreamBase lib :=
  { ws with
    cr_ := x.cr
    rd_ := { op := x.op, cont := ws.rd_.cont, utf8 := x.utf8, size := x.size
             buf_size := x.buf_size, buf := x.buf }
    wr_ := { x.wr with cont := ws.wr_.cont } }

end StreamBase

/-- Remains that a session does not look at any more, or not before it covers them. -/
structure Hidden (p : Progress) (x : Remains lib) (rd : Rd lib) (wr : Wr) (compresses : Bool) :
    Prop where
  checker : lib.Alike rd.utf8 x.utf8
  op : p.headed = true → x.op = rd.op
  size : p.headed = true → x.size = rd.size
  buf_size : p.buffered = true → compresses = true → x.buf_size = rd.buf_size
  unread : p.headed = false → rd.cont = false
  written : p.written = true → { x.wr with cont := wr.cont } = wr
  unwritten : p.written = false → wr.cont = false

/-- Two streams that differ in hidden remains alone. -/
def StreamBase.Like (p : Progress) (ws ws' : StreamBase lib) : Prop :=
  ∃ x, Hidden p x ws.rd_ ws.wr_ ws.pmd_.isSome ∧ ws' = ws.overlay x

namespace StreamBase.Like

variable {p : Progress} {a b : StreamBase lib}

section Frames

/-- Mask keys are drawn alike. -/
theorem maskgen (same : Like p a b) {key : UInt32} {a' : StreamBase lib}
    (draws : a.maskgen = (key, a')) : ∃ b', b.maskgen = (key, b') ∧ Like p a' b' := by
  obtain ⟨x, hidden, rfl⟩ := same
  cases draws
  exact ⟨_, rfl, x, hidden, rfl⟩

/-- Control frames are made alike. -/
theorem writeControl (same : Like p a b) {op : Opcode} {payload : List Octets} {fb : Octets}
    {a' : StreamBase lib} (writes : a.writeControl op payload = (fb, a')) :
    ∃ b', b.writeControl op payload = (fb, b') ∧ Like p a' b' := by
  obtain ⟨x, hidden, rfl⟩ := same
  dsimp only [StreamBase.writeControl, overlay] at writes ⊢
  -- Whether the frame is masked depends on the role alone.
  split at writes
  · rename_i mask
    cases writes
    rw [if_pos mask]
    exact ⟨_, rfl, x, hidden, rfl⟩
  · rename_i plain
    cases writes
    rw [if_neg plain]
    exact ⟨_, rfl, x, hidden, rfl⟩

/-- A close frame is answered alike where it was read alike. -/
theorem replyClose (same : Like p a b) (read : b.cr_ = a.cr_) {fb : Octets}
    {a' : StreamBase lib} (replies : a.replyClose = (fb, a')) :
    ∃ b', b.replyClose = (fb, b') ∧ Like p a' b' := by
  unfold StreamBase.replyClose at replies ⊢
  rw [read]
  exact same.writeControl replies

end Frames

section Reading

/-- The fixed part of a frame header does not look at remains. -/
theorem readFh1_over {ws ws' : StreamBase lib} {fh₀ fh : FrameHeader} {b0 b1 : UInt8} {n : Nat}
    {code : CloseCode} (x : Remains lib) (read : ws.readFh1 fh₀ b0 b1 = (fh, n, code, ws')) :
    (ws.overlay x).readFh1 fh₀ b0 b1 = (fh, n, code, ws'.overlay x) := by
  dsimp only [StreamBase.readFh1, overlay] at read ⊢
  generalize fh₀.readFixed b0 b1 = parts at read ⊢
  -- Every test is one of the header, or of what remains leave alone.
  split at read <;> split_ifs at read ⊢ <;> cases read <;> rfl

/-- The fixed part of a frame header is read alike, and says that a message goes on where it does. -/
theorem readFh1 (same : Like p a b) {fh₀ fh : FrameHeader} {b0 b1 : UInt8} {n : Nat}
    {code : CloseCode} {a' : StreamBase lib} (read : a.readFh1 fh₀ b0 b1 = (fh, n, code, a')) :
    ∃ b', b.readFh1 fh₀ b0 b1 = (fh, n, code, b') ∧ Like p a' b' ∧
      (code = .none → fh.op = .cont → p.headed = true) := by
  obtain ⟨x, hidden, rfl⟩ := same
  refine ⟨a'.overlay x, readFh1_over x read, ⟨x, ?_, rfl⟩, ?_⟩
  · rcases (StreamBase.readFh1_keeps read).2 with rfl | ⟨-, -, rfl⟩
    · exact hidden
    · simpa only [Option.isSome_map] using hidden
  · rintro rfl named
    rcases StreamBase.readFh1_accepts read with ⟨control, -⟩ | ⟨-, running, -⟩ | ⟨data, -⟩
    · simp [named] at control
    · -- No message goes on before a first data frame was read.
      cases headed : p.headed with
      | true => rfl
      | false => rw [hidden.unread headed] at running; cases running
    · simp [named] at data

/-- The variable part of a frame header covers the remains of an earlier one, or does not look. -/
theorem readFh2_over {ws ws' : StreamBase lib} {fh₀ fh : FrameHeader} {db rest : Octets}
    {code : CloseCode} {x : Remains lib} (size : fh₀.op = .cont → x.size = ws.rd_.size)
    (read : ws.readFh2 fh₀ db = (fh, rest, code, ws')) :
    ∃ x', (ws.overlay x).readFh2 fh₀ db = (fh, rest, code, ws'.overlay x') ∧
      x' = if code = .none ∧ isControl fh₀.op = false ∧ fh₀.op ≠ .cont then
          { x with op := ws'.rd_.op, size := ws'.rd_.size }
        else x := by
  rcases length : readLength fh₀ db with ⟨fh₁, db₁, code₁⟩
  obtain ⟨op, -, -, -⟩ := readLength_keeps length
  dsimp only [StreamBase.readFh2, overlay] at read ⊢
  rw [length] at read ⊢
  dsimp only at read ⊢
  split at read
  · rename_i bad
    cases read
    rw [if_pos bad, if_neg (fun accepted => by simp [accepted.1] at bad)]
    exact ⟨x, rfl, rfl⟩
  · rename_i good
    rw [if_neg good]
    -- The key is of no concern here, so both ways of finding it are the same.
    obtain ⟨fh₂, db₂, keyed, op₂⟩ : ∃ fh₂ db₂,
        (if fh₁.mask = true then
          ({ fh₁ with key := UInt32.ofNat (littleToNative (db₁.take 4)) }, db₁.drop 4)
        else ({ fh₁ with key := 0 }, db₁)) = (fh₂, db₂) ∧ fh₂.op = fh₀.op := by
      split
      · exact ⟨_, _, rfl, op⟩
      · exact ⟨_, _, rfl, op⟩
    simp only [keyed, op₂] at read ⊢
    split at read
    · rename_i control
      cases read
      rw [if_pos control, if_neg (fun data => by simp [control] at data)]
      exact ⟨x, rfl, rfl⟩
    rename_i data
    rw [if_neg data]
    split at read
    · rename_i first
      cases read
      rw [if_pos first, if_pos ⟨rfl, by simpa using data, by simpa using first⟩]
      exact ⟨_, rfl, rfl⟩
    · rename_i more
      have named : fh₀.op = .cont := by simpa using more
      rw [if_neg more]
      split at read
      · rename_i long
        rw [← size named] at long
        cases read
        rw [if_pos long]
        exact ⟨x, rfl, (if_neg fun begins => by simp [named] at begins).symm⟩
      · rename_i room
        rw [← size named] at room
        cases read
        rw [if_neg room]
        exact ⟨x, rfl, (if_neg fun begins => by simp [named] at begins).symm⟩

/-- The variable part of a frame header is read alike, unless a message goes on that was not begun. -/
theorem readFh2 (same : Like p a b) {fh₀ fh : FrameHeader} {db rest : Octets} {code : CloseCode}
    {a' : StreamBase lib} (begun : fh₀.op = .cont → p.headed = true)
    (read : a.readFh2 fh₀ db = (fh, rest, code, a')) :
    ∃ b', b.readFh2 fh₀ db = (fh, rest, code, b') ∧
      (Like p a' b' ∧ (code = .none → isControl fh.op = false → fh.op = .cont) ∨
        fh.op ≠ .cont ∧
          Like { p with headed := true, buffered := p.headed && p.buffered } a' b') := by
  obtain ⟨x, hidden, rfl⟩ := same
  obtain ⟨x', read', covers⟩ := readFh2_over (fun more => hidden.size (begun more)) read
  refine ⟨a'.overlay x', read', ?_⟩
  obtain ⟨op, -, -, -, changes⟩ := StreamBase.readFh2_keeps read
  rcases changes with ⟨quiet, rfl⟩ | ⟨rfl, data, first, rfl⟩ | ⟨rfl, data, more, -, rfl⟩
  · rw [if_neg (by rintro ⟨rfl, data, -⟩; simp [data] at quiet)] at covers
    subst covers
    refine .inl ⟨⟨x', hidden, rfl⟩, fun accepted data => ?_⟩
    rw [op] at data
    simp [accepted, data] at quiet
  · rw [if_pos ⟨rfl, data, first⟩] at covers
    subst covers
    refine .inr ⟨op ▸ first, _, ?_, rfl⟩
    exact {
      checker := hidden.checker
      op := fun _ => rfl
      size := fun _ => rfl
      buf_size := fun seen => hidden.buf_size (by simp only [Bool.and_eq_true] at seen; exact seen.2)
      unread := fun unread => by cases unread
      written := hidden.written
      unwritten := hidden.unwritten }
  · rw [if_neg (fun begins => begins.2.2 more)] at covers
    subst covers
    refine .inl ⟨⟨x', ?_, rfl⟩, fun _ _ => op.trans more⟩
    exact { hidden with unread := fun unread => by rw [begun more] at unread; cases unread }

/-- Behind its allocation the read buffer of a session that compresses has the size that is set. -/
theorem rdBegin_eq (ws : StreamBase lib) :
    ∃ buf, ws.rdBegin = { ws with rd_ := { ws.rd_ with
      buf_size := if ws.pmd_.isSome then ws.rd_buf_size_ else ws.rd_.buf_size, buf } } := by
  unfold StreamBase.rdBegin
  cases compresses : ws.pmd_.isSome with
  | false => exact ⟨ws.rd_.buf, rfl⟩
  | true =>
    split
    · exact ⟨true, rfl⟩
    · rename_i kept
      have size : ws.rd_.buf_size = ws.rd_buf_size_ := by
        simp only [Bool.true_and, Bool.or_eq_true, bne_iff_ne, not_or, not_not] at kept
        exact kept.2
      have same : ws.rd_ = { ws.rd_ with buf_size := ws.rd_buf_size_ } := by rw [← size]
      exact ⟨ws.rd_.buf, by rw [if_pos rfl, ← same]⟩

/-- The read buffer is seen to alike, which covers what remains of an earlier one. -/
theorem rdBegin (same : Like p a b) : Like { p with buffered := true } a.rdBegin b.rdBegin := by
  obtain ⟨x, hidden, rfl⟩ := same
  obtain ⟨buf, eq⟩ := rdBegin_eq a
  obtain ⟨buf', eq'⟩ := rdBegin_eq (a.overlay x)
  rw [eq, eq']
  refine ⟨{ x with buf_size := if a.pmd_.isSome then a.rd_buf_size_ else x.buf_size, buf := buf' },
    ?_, rfl⟩
  refine { hidden with buf_size := fun _ compresses => ?_ }
  have compresses : a.pmd_.isSome = true := compresses
  simp only [compresses, if_true]

/-- A piece of a text message is checked alike. -/
theorem checkText (same : Like p a b) (headed : p.headed = true) {pb : Octets} {last valid : Bool}
    {a' : StreamBase lib} (checks : a.checkText pb last = (valid, a')) :
    ∃ b', b.checkText pb last = (valid, b') ∧ Like p a' b' := by
  obtain ⟨x, hidden, rfl⟩ := same
  obtain ⟨wrote, alike⟩ := hidden.checker.write pb
  obtain ⟨finished, alike'⟩ := alike.finish
  dsimp only [StreamBase.checkText, overlay] at checks ⊢
  rw [hidden.op headed]
  split at checks
  · rename_i other
    cases checks
    rw [if_pos other]
    exact ⟨_, rfl, x, hidden, by rw [← hidden.op headed]; rfl⟩
  · rename_i text
    rw [if_neg text]
    generalize lib.utf8_write a.rd_.utf8 pb = one at checks wrote alike finished alike'
    generalize lib.utf8_write x.utf8 pb = other at wrote alike finished alike' ⊢
    rcases one with ⟨good, utf8⟩
    rcases other with ⟨good', utf8'⟩
    obtain rfl : good' = good := wrote
    cases good' with
    | false =>
      cases checks
      exact ⟨_, rfl, { x with utf8 := utf8' }, { hidden with checker := alike },
        by rw [← hidden.op headed]; rfl⟩
    | true =>
      dsimp only at checks finished alike' ⊢
      split at checks
      · rename_i final
        cases checks
        rw [if_pos final, finished]
        exact ⟨_, rfl, { x with utf8 := (lib.utf8_finish utf8').2 },
          { hidden with checker := alike' }, by rw [← hidden.op headed]; rfl⟩
      · rename_i more
        cases checks
        rw [if_neg more]
        exact ⟨_, rfl, { x with utf8 := utf8' }, { hidden with checker := alike },
          by rw [← hidden.op headed]; rfl⟩

/-- A message is compressed, or is not, in both. -/
theorem compressed (same : Like p a b) : b.compressed = a.compressed := by
  obtain ⟨x, hidden, rfl⟩ := same
  rfl

/-- A frame is too large for both, or for neither. -/
theorem exceeds (same : Like p a b) (headed : p.headed = true) (len : UInt64) :
    b.exceeds len = a.exceeds len := by
  obtain ⟨x, hidden, rfl⟩ := same
  simp only [StreamBase.exceeds, overlay, hidden.size headed]

/-- A frame is added to the size of the message alike. -/
theorem grow (same : Like p a b) (len : UInt64) : Like p (a.grow len) (b.grow len) := by
  obtain ⟨x, hidden, rfl⟩ := same
  refine ⟨{ x with size := x.size + len }, ?_, rfl⟩
  exact { hidden with size := fun headed => by rw [hidden.size headed]; rfl }

/-- A piece of a message is decompressed alike. -/
theorem inflate (same : Like p a b) {db input out : Octets} {ec : Option ErrorCode}
    {a' : StreamBase lib} (inflates : a.inflate db input = (out, ec, a')) :
    ∃ b', b.inflate db input = (out, ec, b') ∧ Like p a' b' := by
  obtain ⟨x, hidden, rfl⟩ := same
  dsimp only [StreamBase.inflate, overlay] at inflates ⊢
  cases codec : a.pmd_ with
  | none =>
    rw [codec] at inflates
    cases inflates
    exact ⟨_, rfl, x, hidden, by rw [← codec]; rfl⟩
  | some pmd =>
    rw [codec] at inflates hidden
    cases inflates
    exact ⟨_, rfl, x, hidden, rfl⟩

/-- A piece of a message is decompressed alike, and so is the end of it. -/
theorem inflateFrame (same : Like p a b) {db input out : Octets} {last : Bool}
    {ec : Option ErrorCode} {a' : StreamBase lib}
    (inflates : a.inflateFrame db input last = (out, ec, a')) :
    ∃ b', b.inflateFrame db input last = (out, ec, b') ∧ Like p a' b' := by
  unfold StreamBase.inflateFrame at inflates ⊢
  rcases first : a.inflate db input with ⟨piece, ec₁, a₁⟩
  obtain ⟨b₁, first', same₁⟩ := same.inflate first
  rw [first] at inflates
  rw [first']
  cases ec₁ with
  | some ec₁ => cases inflates; exact ⟨_, rfl, same₁⟩
  | none =>
    dsimp only at inflates ⊢
    split at inflates
    · rename_i final
      rw [if_pos final]
      rcases second : a₁.inflate (db ++ piece) [0x00, 0x00, 0xff, 0xff] with ⟨more, ec₂, a₂⟩
      obtain ⟨b₂, second', same₂⟩ := same₁.inflate second
      rw [second] at inflates
      rw [second']
      cases inflates
      exact ⟨_, rfl, same₂⟩
    · rename_i more
      rw [if_neg more]
      cases inflates
      exact ⟨_, rfl, same₁⟩

/-- The window of the decompressor is forgotten alike. -/
theorem endInflate (same : Like p a b) (fin : Bool) :
    Like p (a.endInflate fin) (b.endInflate fin) := by
  obtain ⟨x, hidden, rfl⟩ := same
  dsimp only [StreamBase.endInflate, overlay]
  -- Whether it is forgotten depends on what was negotiated.
  split
  · exact ⟨x, by simpa only [Option.isSome_map] using hidden, rfl⟩
  · exact ⟨x, hidden, rfl⟩

end Reading

section Writing

/-- Behind the beginning of a message its writer goes by the options alone. -/
theorem wrBegin_eq (ws : StreamBase lib) :
    ws.wrBegin = { ws with wr_ := {
      cont := ws.wr_.cont
      autofrag := ws.wr_autofrag_
      compress := ws.pmd_.isSome
      buf_size := ws.wr_buf_size_
      buf := ws.pmd_.isSome || ws.role_ == .client } } := by
  unfold StreamBase.wrBegin
  cases masks : (ws.pmd_.isSome || ws.role_ == .client) with
  | false => simp only [masks, Bool.false_eq_true, if_false]
  | true =>
    simp only [masks, if_true]
    split
    · rfl
    · rename_i kept
      simp only [Bool.or_eq_true, Bool.not_eq_true', bne_iff_ne, not_or, not_not,
        Bool.not_eq_false] at kept
      rw [← kept.2, ← kept.1]

/-- The data of a message is begun alike, and gone on with alike. -/
theorem beginFrame (same : Like p a b) {fh : FrameHeader} {a' : StreamBase lib}
    (begins : a.beginFrame = (fh, a')) :
    ∃ b', b.beginFrame = (fh, b') ∧ Like { p with written := true } a' b' := by
  obtain ⟨x, hidden, rfl⟩ := same
  cases cont : a.wr_.cont with
  | true =>
    -- A message that goes on was begun in this session.
    have written : p.written = true := by
      cases written : p.written with
      | true => rfl
      | false => rw [hidden.unwritten written] at cont; cases cont
    have wr := hidden.written written
    have eq : a.overlay x = a.overlay { x with wr := a.wr_ } := by simp only [overlay, wr]
    rw [eq]
    unfold StreamBase.beginFrame at begins ⊢
    rw [if_pos (show (a.overlay { x with wr := a.wr_ }).wr_.cont = true from cont)]
    rw [if_pos cont] at begins
    cases begins
    refine ⟨_, rfl, { x with wr := a.wr_ }, ?_, rfl⟩
    exact { hidden with written := fun _ => rfl, unwritten := fun absurd_ => by cases absurd_ }
  | false =>
    unfold StreamBase.beginFrame at begins ⊢
    rw [if_neg (by rw [show (a.overlay x).wr_.cont = false from cont]; exact Bool.false_ne_true),
      wrBegin_eq]
    rw [if_neg (by rw [cont]; exact Bool.false_ne_true), wrBegin_eq] at begins
    cases begins
    refine ⟨_, rfl, { x with wr := (a.overlay x).wrBegin.wr_ }, ?_, by rw [wrBegin_eq]; rfl⟩
    rw [wrBegin_eq]
    exact { hidden with written := fun _ => rfl, unwritten := fun absurd_ => by cases absurd_ }

/-- Data is compressed alike. -/
theorem deflate (same : Like p a b) (written : p.written = true) {cb out rest : Octets}
    {fin more : Bool} {ec : Option ErrorCode} {a' : StreamBase lib}
    (deflates : a.deflate cb fin = (out, rest, more, ec, a')) :
    ∃ b', b.deflate cb fin = (out, rest, more, ec, b') ∧ Like p a' b' := by
  obtain ⟨x, hidden, rfl⟩ := same
  have wr : (a.overlay x).wr_ = a.wr_ := hidden.written written
  unfold StreamBase.deflate at deflates ⊢
  rw [wr, show (a.overlay x).pmd_ = a.pmd_ from rfl]
  cases codec : a.pmd_ with
  | none =>
    rw [codec] at deflates
    cases deflates
    exact ⟨_, rfl, x, hidden, rfl⟩
  | some pmd =>
    rw [codec] at deflates hidden
    cases deflates
    exact ⟨_, rfl, { x with wr := a.wr_ }, { hidden with written := fun _ => rfl }, rfl⟩

/-- The window of the compressor is forgotten alike. -/
theorem endDeflate (same : Like p a b) (fin : Bool) :
    Like p (a.endDeflate fin) (b.endDeflate fin) := by
  obtain ⟨x, hidden, rfl⟩ := same
  dsimp only [StreamBase.endDeflate, overlay]
  split
  · exact ⟨x, by simpa only [Option.isSome_map] using hidden, rfl⟩
  · exact ⟨x, hidden, rfl⟩

/-- The settings of the writer are the same in both, once a message was begun. -/
theorem wr_eq (same : Like p a b) (written : p.written = true) : b.wr_ = a.wr_ := by
  obtain ⟨x, hidden, rfl⟩ := same
  exact hidden.written written

/-- Whether the message goes on is noted alike. -/
theorem setCont (same : Like p a b) (written : p.written = true) (cont : Bool) :
    Like p (a.setCont cont) (b.setCont cont) := by
  obtain ⟨x, hidden, rfl⟩ := same
  refine ⟨x, ?_, rfl⟩
  refine { hidden with written := fun _ => ?_, unwritten := fun unwritten => ?_ }
  · exact congrArg (fun wr : Wr => { wr with cont }) (hidden.written written)
  · rw [written] at unwritten
    cases unwritten

end Writing

end StreamBase.Like

end Beast.Websocket

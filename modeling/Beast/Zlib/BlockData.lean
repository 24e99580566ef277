import Beast.Zlib.CodeWords
import Beast.Zlib.WindowLaws

/-! The data of a block: what literals and matches are sent as, the text that they stand for, and that a decoder
comes to this text. -/

namespace Beast.Zlib

open Machine

/-! ## What is sent -/

/-- The code of a symbol, with as many bits as it has. -/
def CtData.field (c : CtData) : BitField := (c.fc, c.dl)

/-- Extra bits, where there are any. -/
def extraField (v extra : Nat) : List BitField := if extra ≠ 0 then [(v, extra)] else []

/-- The numbers that a literal or a match is sent as. -/
def Tally.fields (ltree dtree : Tree) (t : Tally) : List BitField :=
  if t.dist = 0 then [(ltree t.lc.toNat).field]
  else
    let code := length_code.getD t.lc.toNat 0
    let dist := t.dist - 1
    (ltree (code + literals + 1)).field ::
      (extraField (t.lc.toNat - base_length code) (extra_lbits.getD code 0) ++
        (dtree (d_code dist)).field ::
          extraField (dist - base_dist (d_code dist)) (extra_dbits.getD (d_code dist) 0))

/-- The numbers that the data of a block is sent as. -/
def dataFields (ltree dtree : Tree) (tallies : List Tally) : List BitField :=
  tallies.flatMap (Tally.fields ltree dtree) ++ [(ltree END_BLOCK).field]

section Sending

variable {ltree dtree : Tree} {s : Sink} {v extra : Nat}

theorem send_extra (v extra : Nat) (s : Sink) :
    (if extra ≠ 0 then s.send_bits v extra else s) = s.send (extraField v extra) := by
  unfold extraField
  split <;> rfl

/-- A literal or a match is sent as its numbers, one after another. -/
theorem send_tally_eq (ltree dtree : Tree) (s : Sink) (t : Tally) :
    send_tally ltree dtree s t = s.send (t.fields ltree dtree) := by
  unfold send_tally Tally.fields
  split
  · rfl
  · dsimp only
    rw [Sink.send_cons, Sink.send_append, Sink.send_cons, send_extra, send_extra]
    rfl

theorem send_tallies_eq (ltree dtree : Tree) (tallies : List Tally) (s : Sink) :
    tallies.foldl (send_tally ltree dtree) s = s.send (tallies.flatMap (Tally.fields ltree dtree)) := by
  induction tallies generalizing s with
  | nil => rfl
  | cons t tallies ih => rw [List.foldl_cons, ih, send_tally_eq, List.flatMap_cons, Sink.send_append]

/-- The data of a block is sent as its numbers, where the overlay is ok. -/
theorem compress_block_sent {lit_bufsize : Nat} {tallies : List Tally} {s' : Sink}
    (sent : compress_block lit_bufsize ltree dtree tallies s = some s') :
    s' = s.send (dataFields ltree dtree tallies) := by
  obtain ⟨through, stops⟩ := compressLoop_eq lit_bufsize ltree dtree tallies s 0
  rw [Nat.mul_zero, Nat.add_zero] at through stops
  unfold compress_block at sent
  by_cases ok : OverlayOk lit_bufsize ltree dtree tallies s
  · rw [through ok] at sent
    rw [← Option.some.inj sent, dataFields, Sink.send_append, send_tallies_eq]
    rfl
  · rw [stops ok] at sent
    cases sent

end Sending

/-! ## What it stands for -/

namespace Tally

/-- How many octets a literal or a match stands for. -/
def size (t : Tally) : Nat := if t.dist = 0 then 1 else t.lc.toNat + 3

/-- The text behind a literal or a match: an octet more, or some that were there before. -/
def expand (t : Tally) (text : Octets) : Octets :=
  if t.dist = 0 then text ++ [t.lc] else repeated t.dist (t.lc.toNat + 3) text

@[simp] theorem length_expand (t : Tally) (text : Octets) : (t.expand text).length = text.length + t.size := by
  unfold expand size
  split <;> simp

end Tally

/-- The text behind some literals and matches. -/
def expandAll (tallies : List Tally) (text : Octets) : Octets := tallies.foldl (fun text t => t.expand text) text

/-- No match reaches further back than there is text, of which so much is there before. -/
def Near (room : Nat) : List Tally → Prop
  | [] => True
  | t :: rest => t.dist ≤ room ∧ Near (room + t.size) rest

/-- How many octets some literals and matches stand for. -/
def textSize (tallies : List Tally) : Nat := (tallies.map Tally.size).sum

theorem length_expandAll (tallies : List Tally) (text : Octets) :
    (expandAll tallies text).length = text.length + textSize tallies := by
  induction tallies generalizing text with
  | nil => rfl
  | cons t tallies ih =>
    have rest := ih (t.expand text)
    unfold expandAll textSize at rest ⊢
    rw [List.foldl_cons, rest, Tally.length_expand, List.map_cons, List.sum_cons, Nat.add_assoc]

section Repeated

variable {offset n : Nat} {h out : Octets}

/-- Octets are repeated one after another. -/
theorem repeated_add (offset m n : Nat) (out : Octets) :
    repeated offset (m + n) out = repeated offset n (repeated offset m out) := by
  induction m generalizing out with
  | zero => rw [Nat.zero_add, repeated]
  | succ m ih => rw [Nat.succ_add, repeated, repeated, ih]

/-- What is repeated from the text itself is repeated behind any other text. -/
theorem repeated_behind (near : offset ≤ out.length) (h : Octets) :
    repeated offset n (h ++ out) = h ++ repeated offset n out := by
  induction n generalizing out with
  | zero => rfl
  | succ n ih =>
    have same : (h ++ out).getD ((h ++ out).length - offset) 0 = out.getD (out.length - offset) 0 := by
      rw [List.length_append, List.getD_append_right _ _ _ _ (by omega)]
      congr 1
      omega
    rw [repeated, same, List.append_assoc, ih (by rw [List.length_append]; omega), repeated]

/-- What is repeated from in front of the text is what stands there. -/
theorem repeated_front (far : out.length < offset) (there : offset ≤ h.length + out.length)
    (few : n ≤ offset - out.length) : repeated offset n (h ++ out) =
      h ++ (out ++ (h.drop (h.length - (offset - out.length))).take n) := by
  induction n with
  | zero => simp [repeated]
  | succ n ih =>
    have inside : n < (h.drop (h.length - (offset - out.length))).length := by
      rw [List.length_drop]
      omega
    -- The last octet is the one behind those before it.
    have one : ∀ text : Octets, repeated offset 1 text = text ++ [text.getD (text.length - offset) 0] := fun _ => rfl
    have place : (h ++ (out ++ (h.drop (h.length - (offset - out.length))).take n)).length - offset =
        h.length - (offset - out.length) + n := by
      rw [List.length_append, List.length_append, List.length_take, Nat.min_eq_left inside.le]
      omega
    have low : h.length - (offset - out.length) + n < h.length := by omega
    rw [repeated_add, ih (by omega), one, place, List.getD_append _ _ _ _ low, List.append_assoc, List.append_assoc,
      List.take_succ_eq_append_getElem inside, List.getElem_drop, List.getD_eq_getElem _ _ low]

end Repeated

/-- A window gives back the last octets of a text. -/
structure Window.Recalls (w : Window) (h : Octets) : Prop where
  few : w.size_ ≤ h.length
  read : ∀ back n, 1 ≤ n → n ≤ back → back ≤ w.size_ → w.read back n = (h.drop (h.length - back)).take n

theorem HistoryWindow.Keeps.recalls {w : HistoryWindow} {bits : Nat} {h : Octets} (keeps : w.Keeps bits h) :
    w.toWindow.Recalls h :=
  ⟨by rw [keeps.size]; exact Nat.min_le_left _ _, fun _ _ some_ few last => keeps.read some_ few last⟩

/-! ## What a decoder comes to -/

theorem width_extraField (v extra : Nat) : BitField.width (extraField v extra) = extra := by
  unfold extraField
  split
  · simp
  · rename_i none
    rw [not_not.mp none]
    rfl

/-- Extra bits are those that were sent, or none. -/
theorem held_extra {b : BitString} {pos v v' extra : Nat} {fs : List BitField}
    (held : BitField.Held b pos (extraField v extra ++ fs)) (same : extra ≠ 0 → v = v') (fits : v' < 2 ^ extra) :
    b.slice pos extra = v' ∧ BitField.Held b (pos + extra) fs := by
  unfold extraField at held
  by_cases none : extra = 0
  · rw [if_neg (not_not.mpr none)] at held
    subst none
    rw [BitString.slice_zero]
    exact ⟨by omega, held⟩
  · rw [if_pos none] at held
    exact ⟨held.1.trans (same none), held.2⟩

namespace Block

variable {k : Block} {ltree dtree : Tree} {d : Decoder} {h : Octets} {x length offset : Nat}

/-- A code for literals and lengths is decoded to its symbol. -/
theorem len_step (speaks : k.codes.lencode.Speaks .lens ltree x) (phase : d.phase = .LEN)
    (field : k.bits.slice d.pos (ltree x).dl = (ltree x).fc) (enough : d.pos + 15 ≤ k.bits.length) :
    ∃ bits, k.step d =
      Decoder.symbol { d with pos := d.pos + (ltree x).dl } (Build.lens.here (fun _ => 0) x bits) := by
  obtain ⟨bits, decoded⟩ := speaks.decode k.bits d.pos field enough
  refine ⟨bits, ?_⟩
  rw [step, phase]
  simp only
  rw [decoded]

/-- A literal is written. -/
theorem literal_leads {c : UInt8} (speaks : k.codes.lencode.Speaks .lens ltree c.toNat) (phase : d.phase = .LEN)
    (field : k.bits.slice d.pos (ltree c.toNat).dl = (ltree c.toNat).fc) (enough : d.pos + 15 ≤ k.bits.length)
    (room : d.out.length < k.space) :
    Leads k.step (.inl d)
      (.inl { d with pos := d.pos + (ltree c.toNat).dl, out := d.out ++ [c], phase := .LEN }) := by
  obtain ⟨bits, stepped⟩ := len_step speaks phase field enough
  rw [Build.here_literal c.toNat_lt, Decoder.symbol, if_pos rfl] at stepped
  refine (leads_step stepped).trans (leads_step ?_)
  simp only [step]
  rw [if_neg (by omega), UInt8.ofNat_toNat]

/-- The end of the block is found. -/
theorem eob_leads (speaks : k.codes.lencode.Speaks .lens ltree END_BLOCK) (phase : d.phase = .LEN)
    (field : k.bits.slice d.pos (ltree END_BLOCK).dl = (ltree END_BLOCK).fc) (enough : d.pos + 15 ≤ k.bits.length) :
    Leads k.step (.inl d) (.inl { d with pos := d.pos + (ltree END_BLOCK).dl, phase := .elsewhere .TYPE }) := by
  obtain ⟨bits, stepped⟩ := len_step speaks phase field enough
  rw [END_BLOCK, Build.here_eob, Decoder.symbol, if_neg (by decide : ¬(96 : Nat) = 0),
    if_pos (by decide : (96 : Nat) &&& 32 ≠ 0)] at stepped
  exact leads_step stepped

/-- What is left of a match is copied from the output. -/
theorem copy_output (phase : d.phase = .MATCH length offset) (some_ : 0 < length) (near : offset ≤ d.out.length)
    (room : d.out.length + length ≤ k.space) :
    Leads k.step (.inl d) (.inl { d with out := repeated offset length d.out, phase := .LEN }) := by
  have all : min length (k.space - d.out.length) = length := Nat.min_eq_left (by omega)
  apply leads_step
  rw [step, phase]
  simp only
  rw [if_neg (by omega), copy, if_neg (by omega)]
  simp only [all, Nat.sub_self, Phase.rest, if_true]

/-- A match is copied: what it reaches of the window, and the rest from the output. -/
theorem copy_leads (recalls : k.window.Recalls h) (phase : d.phase = .MATCH length offset) (some_ : 0 < length)
    (near : offset ≤ k.window.size_ + d.out.length) (room : d.out.length + length ≤ k.space) :
    ∃ d', Leads k.step (.inl d) (.inl d') ∧ d'.pos = d.pos ∧ d'.phase = .LEN ∧ d'.ec = d.ec ∧
      h ++ d'.out = repeated offset length (h ++ d.out) := by
  by_cases window : d.out.length < offset
  · have few := recalls.few
    obtain ⟨back, same⟩ : ∃ back, offset - d.out.length = back := ⟨_, rfl⟩
    obtain ⟨n, much⟩ : ∃ n, min (min length back) (k.space - d.out.length) = n := ⟨_, rfl⟩
    have read := recalls.read back n (by omega) (by omega) (by omega)
    have stepped : k.step d = .inl { d with
        out := d.out ++ (h.drop (h.length - back)).take n
        reads := d.reads ++ [(back, n)]
        phase := .rest (length - n) offset } := by
      rw [step, phase]
      simp only
      rw [if_neg (by omega), copy, if_pos window]
      simp only
      rw [same, if_neg (by omega), much, read]
    have front := @repeated_front offset n h d.out window (by omega) (by omega)
    rw [same] at front
    by_cases all : length ≤ back
    · -- The match ends within the window.
      have whole : n = length := by omega
      subst whole
      refine ⟨_, leads_step stepped, rfl, ?_, rfl, front.symm⟩
      rw [Phase.rest, if_pos (Nat.sub_self _)]
    · have long : n = back := by omega
      subst long
      have taken : ((h.drop (h.length - n)).take n).length = n := by
        rw [List.length_take, List.length_drop]
        omega
      have rest := @copy_output k { d with
        out := d.out ++ (h.drop (h.length - n)).take n
        reads := d.reads ++ [(n, n)]
        phase := .rest (length - n) offset } (length - n) offset
        (by rw [Phase.rest, if_neg (by omega)]) (by omega)
        (by dsimp only; rw [List.length_append, taken]; omega)
        (by dsimp only; rw [List.length_append, taken]; omega)
      refine ⟨_, (leads_step stepped).trans rest, rfl, rfl, rfl, ?_⟩
      -- What the window gives is the first part of what is repeated.
      dsimp only
      rw [← repeated_behind (by rw [List.length_append, taken]; omega), ← front, ← repeated_add,
        Nat.add_sub_cancel' (by omega)]
  · refine ⟨_, copy_output phase some_ (by omega) room, rfl, rfl, rfl, ?_⟩
    exact (repeated_behind (by omega) h).symm

/-- A match is read, with its length and its distance, and copied. -/
theorem match_leads {t : Tally} {fs : List BitField} (recalls : k.window.Recalls h) (match_ : t.dist ≠ 0)
    (lit : k.codes.lencode.Speaks .lens ltree t.litCode)
    (dist : k.codes.distcode.Speaks .dists dtree (d_code (t.dist - 1)))
    (held : BitField.Held k.bits d.pos (t.fields ltree dtree ++ fs))
    (enough : d.pos + BitField.width (t.fields ltree dtree) + 15 ≤ k.bits.length) (phase : d.phase = .LEN)
    (near : t.dist ≤ k.window.size_ + d.out.length) (room : d.out.length + t.size ≤ k.space) :
    ∃ d', Leads k.step (.inl d) (.inl d') ∧ d'.pos = d.pos + BitField.width (t.fields ltree dtree) ∧
      d'.phase = .LEN ∧ d'.ec = d.ec ∧ h ++ d'.out = t.expand (h ++ d.out) := by
  have far := t.near
  rw [Tally.litCode, if_neg match_] at lit
  rw [Tally.size, if_neg match_] at room
  rw [Tally.fields, if_neg match_] at held enough ⊢
  dsimp only at held enough ⊢
  obtain ⟨op, few, v, fits, same, whole⟩ := length_code_spec t.lc.toNat_lt
  obtain ⟨op', few', fits', whole'⟩ := d_code_spec (by omega : t.dist - 1 < 32768)
  obtain ⟨code, lcode⟩ : ∃ code, length_code.getD t.lc.toNat 0 = code := ⟨_, rfl⟩
  obtain ⟨dcode, dist_⟩ : ∃ dcode, d_code (t.dist - 1) = dcode := ⟨_, rfl⟩
  obtain ⟨extra, lextra⟩ : ∃ extra, extra_lbits.getD code 0 = extra := ⟨_, rfl⟩
  obtain ⟨dextra, dextra_⟩ : ∃ dextra, extra_dbits.getD dcode 0 = dextra := ⟨_, rfl⟩
  rw [lcode, lextra] at op few fits same
  rw [lcode] at whole lit
  rw [dist_, dextra_] at op' few' fits'
  rw [dist_] at whole' dist
  rw [lcode, lextra, dist_, dextra_] at held enough ⊢
  simp only [BitField.width_cons, BitField.width_append, width_extraField, CtData.field] at enough ⊢
  rw [List.cons_append, List.append_assoc, List.cons_append] at held
  -- The numbers are at their places, one behind another.
  obtain ⟨first, held⟩ := held
  obtain ⟨second, held⟩ := held_extra held same fits
  obtain ⟨third, held⟩ := held
  obtain ⟨fourth, -⟩ := held_extra held (fun _ => rfl) fits'
  obtain ⟨-, upper, -, end_, valid⟩ := base_op (by omega : extra ≤ 13) op
  obtain ⟨low, -⟩ := base_op (by omega : extra ≤ 13) op
  obtain ⟨low', -, -, -, valid'⟩ := base_op few' op'
  -- The code of the length.
  obtain ⟨bits, step₁⟩ := len_step lit phase first (by omega)
  rw [show code + literals + 1 = code + 257 from rfl, Build.here_length, Decoder.symbol] at step₁
  dsimp only at step₁
  rw [if_neg (by omega), if_neg (not_not.mpr end_), if_neg (not_not.mpr valid), low] at step₁
  -- Its extra bits.
  have step₂ : k.step { d with pos := d.pos + (ltree (code + literals + 1)).dl, phase := .LENEXT (lbase.getD code 0) extra } =
      .inl { d with
        pos := d.pos + (ltree (code + literals + 1)).dl + extra, phase := .DIST (t.lc.toNat + 3) } := by
    simp only [step]
    rw [if_neg (by omega), second, whole]
  -- The code of the distance.
  obtain ⟨bits', decoded⟩ := dist.decode k.bits (d.pos + (ltree (code + literals + 1)).dl + extra) third (by omega)
  have step₃ : k.step { d with
        pos := d.pos + (ltree (code + literals + 1)).dl + extra, phase := .DIST (t.lc.toNat + 3) } =
      .inl { d with
        pos := d.pos + (ltree (code + literals + 1)).dl + extra + (dtree dcode).dl
        phase := .DISTEXT (t.lc.toNat + 3) (dbase.getD dcode 0) dextra } := by
    simp only [step]
    rw [decoded]
    simp only
    rw [Build.here_distance, Decoder.distance, if_neg (not_not.mpr valid'), low']
  have step₄ : k.step { d with
        pos := d.pos + (ltree (code + literals + 1)).dl + extra + (dtree dcode).dl
        phase := .DISTEXT (t.lc.toNat + 3) (dbase.getD dcode 0) dextra } =
      .inl { d with
        pos := d.pos + (ltree (code + literals + 1)).dl + extra + (dtree dcode).dl + dextra
        phase := .MATCH (t.lc.toNat + 3) t.dist } := by
    simp only [step]
    rw [if_neg (by omega), fourth, whole', Nat.sub_add_cancel (by omega)]
  obtain ⟨d', leads, pos, phase', ec, text⟩ := @copy_leads k { d with
    pos := d.pos + (ltree (code + literals + 1)).dl + extra + (dtree dcode).dl + dextra
    phase := .MATCH (t.lc.toNat + 3) t.dist } h (t.lc.toNat + 3) t.dist recalls rfl (by omega) near room
  refine ⟨d', (((leads_step step₁).trans (leads_step step₂)).trans (leads_step step₃)).trans
    ((leads_step step₄).trans leads), ?_, phase', ec, ?_⟩
  · rw [pos]
    dsimp only
    omega
  · rw [text, Tally.expand, if_neg match_]

/-- The tables of a block lead the codes that a literal or a match is sent with to its symbols. -/
structure Spoken (k : Block) (ltree dtree : Tree) (t : Tally) : Prop where
  lit : k.codes.lencode.Speaks .lens ltree t.litCode
  dist : t.dist ≠ 0 → k.codes.distcode.Speaks .dists dtree (d_code (t.dist - 1))

/-- A literal or a match is decoded to what it stands for. -/
theorem tally_leads {t : Tally} {fs : List BitField} (recalls : k.window.Recalls h) (spoken : k.Spoken ltree dtree t)
    (held : BitField.Held k.bits d.pos (t.fields ltree dtree ++ fs))
    (enough : d.pos + BitField.width (t.fields ltree dtree) + 15 ≤ k.bits.length) (phase : d.phase = .LEN)
    (near : t.dist ≤ k.window.size_ + d.out.length) (room : d.out.length + t.size ≤ k.space) :
    ∃ d', Leads k.step (.inl d) (.inl d') ∧ d'.pos = d.pos + BitField.width (t.fields ltree dtree) ∧
      d'.phase = .LEN ∧ d'.ec = d.ec ∧ h ++ d'.out = t.expand (h ++ d.out) := by
  by_cases literal : t.dist = 0
  · have lit := spoken.lit
    rw [Tally.litCode, if_pos literal] at lit
    rw [Tally.size, if_pos literal] at room
    rw [Tally.fields, if_pos literal] at held enough ⊢
    simp only [BitField.width_cons, BitField.width_nil, CtData.field] at enough ⊢
    refine ⟨_, literal_leads lit phase held.1 (by omega) (by omega), rfl, rfl, rfl, ?_⟩
    rw [Tally.expand, if_pos literal, List.append_assoc]
  · exact match_leads recalls literal spoken.lit (spoken.dist literal) held enough phase near room

/-- The data of a block is decoded to the text that it stands for, and the end of the block is found. -/
theorem data_leads {tallies : List Tally} (recalls : k.window.Recalls h)
    (spoken : ∀ t ∈ tallies, k.Spoken ltree dtree t) (last : k.codes.lencode.Speaks .lens ltree END_BLOCK)
    (held : BitField.Held k.bits d.pos (dataFields ltree dtree tallies))
    (enough : d.pos + BitField.width (dataFields ltree dtree tallies) + 15 ≤ k.bits.length) (phase : d.phase = .LEN)
    (near : Near (k.window.size_ + d.out.length) tallies) (room : d.out.length + textSize tallies ≤ k.space) :
    ∃ d', Leads k.step (.inl d) (.inl d') ∧ d'.pos = d.pos + BitField.width (dataFields ltree dtree tallies) ∧
      d'.phase = .elsewhere .TYPE ∧ d'.ec = d.ec ∧ h ++ d'.out = expandAll tallies (h ++ d.out) := by
  -- The induction is on the literals and matches, of which the first one is decoded.
  induction tallies generalizing d with
  | nil =>
    simp only [dataFields, List.flatMap_nil, List.nil_append, BitField.width_cons, BitField.width_nil,
      CtData.field] at held enough ⊢
    exact ⟨_, eob_leads last phase held.1 (by omega), rfl, rfl, rfl, rfl⟩
  | cons t tallies ih =>
    simp only [dataFields, List.flatMap_cons, List.append_assoc] at held enough ⊢
    rw [BitField.width_append] at enough ⊢
    simp only [textSize, List.map_cons, List.sum_cons] at room
    obtain ⟨first, rest⟩ := near
    obtain ⟨d₁, leads₁, pos₁, phase₁, ec₁, text₁⟩ :=
      tally_leads recalls (spoken t List.mem_cons_self) held (by omega) phase first (by omega)
    have longer : d₁.out.length = d.out.length + t.size := by
      have lengths := congrArg List.length text₁
      rw [Tally.length_expand, List.length_append, List.length_append] at lengths
      omega
    obtain ⟨d₂, leads₂, pos₂, phase₂, ec₂, text₂⟩ := ih (fun u member => spoken u (List.mem_cons_of_mem _ member))
      (by rw [pos₁]; exact (BitField.held_append.mp held).2)
      (by rw [pos₁, Nat.add_assoc d.pos]; exact enough)
      phase₁ (by rw [longer, ← Nat.add_assoc]; exact rest) (by rw [longer]; unfold textSize; omega)
    refine ⟨d₂, leads₁.trans leads₂, ?_, phase₂, ec₂.trans ec₁, ?_⟩
    · rw [pos₂, pos₁, dataFields, Nat.add_assoc]
    · rw [text₂, text₁]
      rfl

end Block

end Beast.Zlib

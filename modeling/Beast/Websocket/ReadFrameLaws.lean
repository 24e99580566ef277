import Beast.Websocket.FrameLaws
import Beast.Websocket.MaskLaws
import Beast.Websocket.ReadFrame

/-! What the parts of the waiting reader do: outcomes, and how much they take. -/

namespace Beast.Websocket

variable {lib : Lib}

namespace NextLayer

/-- As many octets are taken as are asked for, or all there are. -/
theorem takeAll_eq (n : Nat) (pieces : List Octets) :
    (takeAll n pieces).1 = pieces.flatten.take n ∧
      (takeAll n pieces).2.flatten = pieces.flatten.drop n := by
  induction pieces generalizing n with
  | nil => simp [takeAll]
  | cons piece pieces ih =>
    simp only [takeAll]
    split
    · rename_i enough
      simp [List.take_append_of_le_length enough, List.drop_append_of_le_length enough]
    · rename_i short
      obtain ⟨taken, behind⟩ := ih (n - piece.length)
      rw [List.flatten_cons, List.take_append, List.drop_append,
        List.take_of_length_le (by omega), List.drop_eq_nil_of_le (by omega)]
      exact ⟨by rw [taken], by rw [behind]; rfl⟩

/-- A read of some octets that succeeds takes at least one, if any are asked for. -/
theorem readSome_ok {layer layer' : NextLayer} {n : Nat} {s : Octets}
    (read : layer.readSome n = (s, none, layer')) :
    s.length ≤ n ∧ (n ≠ 0 → s ≠ []) ∧ s ++ layer'.input.flatten = layer.input.flatten ∧
      layer'.sent = layer.sent := by
  unfold readSome at read
  split at read
  · rename_i zero
    simp only [Prod.mk.injEq, true_and] at read
    obtain ⟨rfl, rfl⟩ := read
    exact ⟨by simp, fun absurd_ => absurd zero absurd_, rfl, rfl⟩
  · rename_i asked
    rcases taken : takeSome n layer.input with ⟨t, input⟩
    rw [taken] at read
    have short := takeSome_length n layer.input
    have whole := takeSome_append n layer.input
    rw [taken] at short whole
    cases t with
    | nil => simp at read
    | cons c t =>
      simp only [Prod.mk.injEq, true_and] at read
      obtain ⟨rfl, rfl⟩ := read
      exact ⟨short, fun _ => by simp, whole, rfl⟩

/-- A read of so many octets that succeeds takes that many. -/
theorem read_ok {layer layer' : NextLayer} {n : Nat} {s : Octets}
    (read : layer.read n = (s, none, layer')) :
    s.length = n ∧ s ++ layer'.input.flatten = layer.input.flatten ∧
      layer'.sent = layer.sent := by
  unfold NextLayer.read at read
  obtain ⟨taken, behind⟩ := takeAll_eq n layer.input
  simp only [Prod.mk.injEq] at read
  obtain ⟨rfl, enough, rfl⟩ := read
  have long : ¬(takeAll n layer.input).1.length < n := by
    intro short
    simp [short] at enough
  refine ⟨?_, by rw [taken, behind, List.take_append_drop], rfl⟩
  rw [taken, List.length_take] at long ⊢
  omega

end NextLayer

section Outcomes

/-- A report leaves the reader where the stream below failed. -/
theorem run_report {α : Type} (a : α) (ec : Option ErrorCode) (c : Conn lib) :
    Step.run (report a ec) c =
      (match ec with | none => .ok a | some ec => .error (.done ec),
        { c with ws := { c.ws with failed_ := ec.isSome } }) := by
  cases ec <;> rfl

theorem run_readAll (n : Nat) (c : Conn lib) :
    Step.run (readAll n) c =
      (match (c.layer.read n).2.1 with
        | none => .ok (c.layer.read n).1
        | some ec => .error (.done ec),
        { c with
          ws := { c.ws with failed_ := (c.layer.read n).2.1.isSome }
          layer := (c.layer.read n).2.2 }) := by
  simp only [readAll, Step.run_get_bind, Step.run_modify_bind, run_report]

theorem run_readSome (n : Nat) (c : Conn lib) :
    Step.run (readSome n) c =
      (match (c.layer.readSome n).2.1 with
        | none => .ok (c.layer.readSome n).1
        | some ec => .error (.done ec),
        { c with
          ws := { c.ws with failed_ := (c.layer.readSome n).2.1.isSome }
          layer := (c.layer.readSome n).2.2 }) := by
  simp only [readSome, Step.run_get_bind, Step.run_modify_bind, run_report]

theorem run_writeAll (s : Octets) (c : Conn lib) :
    Step.run (writeAll s) c =
      (match (c.layer.write s).1 with
        | none => .ok ()
        | some ec => .error (.done ec),
        { c with
          ws := { c.ws with failed_ := (c.layer.write s).1.isSome }
          layer := (c.layer.write s).2 }) := by
  simp only [writeAll, Step.run_get_bind, Step.run_modify_bind, run_report]

@[simp] theorem run_onStream (f : StreamBase lib → StreamBase lib) (c : Conn lib) :
    Step.run (onStream f) c = (.ok (), { c with ws := f c.ws }) := rfl

/-- A read of so many octets that goes on took them from the front of what is to arrive. -/
theorem readAll_ok {n : Nat} {c c' : Conn lib} {s : Octets}
    (ran : Step.run (readAll n) c = (.ok s, c')) :
    s.length = n ∧ s ++ c'.layer.input.flatten = c.layer.input.flatten ∧
      c' = { c with ws := { c.ws with failed_ := false }, layer := c'.layer } ∧
      c.layer.read n = (s, none, c'.layer) ∧ c'.layer.sent = c.layer.sent := by
  rw [run_readAll] at ran
  rcases read : c.layer.read n with ⟨t, ec, layer⟩
  rw [read] at ran
  cases ec with
  | some ec => simp at ran
  | none =>
    simp only [Option.isSome_none, Prod.mk.injEq, Except.ok.injEq] at ran
    obtain ⟨rfl, rfl⟩ := ran
    obtain ⟨size, front, same⟩ := NextLayer.read_ok read
    exact ⟨size, front, rfl, rfl, same⟩

/-- A read of some octets that goes on took them from the front of what is to arrive. -/
theorem readSome_ok {n : Nat} {c c' : Conn lib} {s : Octets}
    (ran : Step.run (readSome n) c = (.ok s, c')) :
    s.length ≤ n ∧ (n ≠ 0 → s ≠ []) ∧ s ++ c'.layer.input.flatten = c.layer.input.flatten ∧
      c' = { c with ws := { c.ws with failed_ := false }, layer := c'.layer } ∧
      c.layer.readSome n = (s, none, c'.layer) ∧ c'.layer.sent = c.layer.sent := by
  rw [run_readSome] at ran
  rcases read : c.layer.readSome n with ⟨t, ec, layer⟩
  rw [read] at ran
  cases ec with
  | some ec => simp at ran
  | none =>
    simp only [Option.isSome_none, Prod.mk.injEq, Except.ok.injEq] at ran
    obtain ⟨rfl, rfl⟩ := ran
    obtain ⟨size, some_, front, same⟩ := NextLayer.readSome_ok read
    exact ⟨size, some_, front, rfl, rfl, same⟩

end Outcomes

/-- A mask leaves the size of a piece as it is. -/
@[simp] theorem length_unmask (fh : FrameHeader) (key : PreparedKey 8) (pb : Octets) :
    (unmask fh key pb).1.length = pb.length := by
  unfold unmask
  split
  · simp [maskInplace, maskInplaceFast_eq]
  · rfl

end Beast.Websocket

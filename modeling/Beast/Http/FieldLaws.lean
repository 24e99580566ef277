import Beast.Http.BasicParser

/-! What parsing fields preserves: all that does not look at the flags that fields set. -/

namespace Beast.Http

variable {d : Derived} {P : Message d → Prop}

/-- Flags that fields leave alone; a field may tell that the message is chunked, but not take it back. -/
structure Framed (f g : Flags) : Prop where
  onBody : g.flagOnBody = f.flagOnBody
  gotSome : g.flagGotSome = f.flagGotSome
  chunked : f.flagChunked = true → g.flagChunked = true

/-- A property that fields do not touch: it looks at no size, and at hardly any flag. -/
def Blind (P : Message d → Prop) : Prop :=
  ∀ (m : Message d) (len_ : Nat) (f_ : Flags), Framed m.f_ f_ → P m → P { m with len_, f_ }

/-- No token of a connection field says anything of the body. -/
theorem connectionTokens_framed (list : List Octets) (f : Flags) :
    Framed f (list.foldl connectionToken f) := by
  induction list generalizing f with
  | nil => exact ⟨rfl, rfl, id⟩
  | cons s list ih =>
    have first : Framed f (connectionToken f s) := by
      unfold connectionToken
      split
      · exact ⟨rfl, rfl, id⟩
      · split
        · exact ⟨rfl, rfl, id⟩
        · split <;> exact ⟨rfl, rfl, id⟩
    have rest := ih (connectionToken f s)
    exact ⟨rest.onBody.trans first.onBody, rest.gotSome.trans first.gotSome,
      fun chunked => rest.chunked (first.chunked chunked)⟩

/-- Changing flags preserves what does not look at them. -/
theorem setFlags_preserves (blind : Blind P) {f : Flags → Flags} (framed : ∀ g, Framed g (f g)) :
    Step.Preserves P (setFlags (d := d) f) :=
  Step.preserves_modify fun m holds => blind m m.len_ (f m.f_) (framed _) holds

theorem setLen_preserves (blind : Blind P) (n : Nat) :
    Step.Preserves P (modify fun self => { self with len_ := n } : MessageStep d PUnit) :=
  Step.preserves_modify fun m holds => blind m n m.f_ ⟨rfl, rfl, id⟩ holds

theorem fail_preserves {α : Type} (code : ErrorCode) :
    Step.Preserves P (fail (α := α) code) :=
  Step.preserves_stop _

/-- A field preserves what does not look at the flags that it sets. -/
theorem doField_preserves (blind : Blind P) (name value : Octets) :
    Step.Preserves P (doField (d := d) name value) := by
  unfold doField
  repeat' first
    | with_reducible first
      | exact Step.preserves_pure _
      | exact Step.preserves_get
      | exact fail_preserves _
      | exact setFlags_preserves blind fun _ => ⟨rfl, rfl, fun _ => rfl⟩
      | exact setFlags_preserves blind fun _ => ⟨rfl, rfl, id⟩
      | exact setFlags_preserves blind fun _ => connectionTokens_framed _ _
      | exact setLen_preserves blind _
    | refine Step.preserves_bind ?_ fun _ => ?_
    | split

/-- Splitting off a line touches nothing. -/
theorem readLine_preserves (it : Octets) : Step.Preserves P (readLine (d := d) it) := by
  unfold readLine
  split
  · exact fail_preserves _
  · exact Step.preserves_stop _
  · exact Step.preserves_pure _

theorem lift_preserves {α : Type} (r : Except Halt α) :
    Step.Preserves P (Step.lift r : MessageStep d α) :=
  fun _ holds => holds

theorem isFold_preserves (it : Octets) : Step.Preserves P (isFold (d := d) it) :=
  Step.preserves_bind (lift_preserves _) fun _ => Step.preserves_pure _

theorem skipFolds_preserves (fuel : Nat) (line it : Octets) :
    Step.Preserves P (skipFolds (d := d) fuel line it) := by
  induction fuel generalizing line it with
  | zero => exact Step.preserves_stop _
  | succ fuel ih =>
    unfold skipFolds
    dsimp only
    repeat' first
      | with_reducible first
        | exact Step.preserves_pure _
        | exact isFold_preserves _
        | exact readLine_preserves _
        | exact ih _ _
      | refine Step.preserves_bind ?_ fun _ => ?_
      | split

theorem joinFolds_preserves (fuel : Nat) (s it : Octets) :
    Step.Preserves P (joinFolds (d := d) fuel s it) := by
  induction fuel generalizing s it with
  | zero => exact Step.preserves_stop _
  | succ fuel ih =>
    unfold joinFolds
    repeat' first
      | with_reducible first
        | exact Step.preserves_pure _
        | exact isFold_preserves _
        | exact readLine_preserves _
        | exact ih _ _
      | refine Step.preserves_bind ?_ fun _ => ?_
      | split

/-- Fields preserve what does not look at the flags, and what telling a field preserves. -/
theorem parseFields_preserves (blind : Blind P)
    (told : ∀ name value, Step.Preserves P (invoke (d := d) (.on_field name value)))
    (fuel : Nat) (it : Octets) : Step.Preserves P (parseFields (d := d) fuel it) := by
  induction fuel generalizing it with
  | zero => exact Step.preserves_stop _
  | succ fuel ih =>
    unfold parseFields
    repeat' first
      | with_reducible first
        | exact Step.preserves_pure _
        | exact lift_preserves _
        | exact fail_preserves _
        | exact told _ _
        | exact doField_preserves blind _ _
        | exact isFold_preserves _
        | exact readLine_preserves _
        | exact skipFolds_preserves _ _ _
        | exact joinFolds_preserves _ _ _
        | exact ih _
      | refine Step.preserves_bind ?_ fun _ => ?_
      | split

end Beast.Http

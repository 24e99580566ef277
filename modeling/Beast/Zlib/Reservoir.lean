import Beast.Zlib.InflateWrite

/-! The reservoir never holds more bits than it can, whatever is read of symbols and of trees. -/

namespace Beast.Zlib

open Step

/-- The reservoir holds no more bits than it can. -/
def Source.Few (s : Source) : Prop := s.bi_.n_ ≤ 32

theorem maintains_asserted {σ : Type} {P : σ → Prop} {holds : Prop} [Decidable holds] :
    Maintains P (asserted holds : Step Halt σ Unit) := by
  unfold asserted
  split
  · exact maintains_pure _
  · exact maintains_stop _

namespace Source

variable {n : Nat}

theorem few_drop : Maintains Few (drop n) := by
  apply maintains_bind maintains_get
  intro s
  apply maintains_bind maintains_asserted
  intro _
  exact maintains_modify fun s few => Nat.le_trans (Nat.sub_le _ _) few

theorem few_fill : Maintains Few (fill n) := by
  -- An octet is only put into the reservoir where it fits.
  have octet : Maintains Few fill_8 := by
    intro s few
    apply wlp_get_bind
    split
    · exact wlp_stop
    · apply wlp_ite
      · exact fun _ => wlp_stop
      · intro fits a t ran
        cases ran
        exact Nat.not_lt.mp fits
  have rounds : ∀ avail, Maintains Few (fillFrom n avail) := by
    intro avail
    induction avail with
    | zero => exact maintains_bind maintains_get fun _ => maintains_pure _
    | succ avail ih =>
      apply maintains_bind maintains_get
      intro s
      split
      · exact maintains_bind octet fun _ => ih
      · exact maintains_pure _
  exact maintains_bind maintains_get fun s => rounds _

theorem few_peek (width : Nat) : Maintains Few (peek width n) := by
  apply maintains_bind maintains_asserted
  intro _
  apply maintains_bind maintains_get
  intro s
  apply maintains_bind maintains_asserted
  intro _
  exact maintains_bind maintains_get fun _ => maintains_pure _

theorem few_read (width : Nat) : Maintains Few (read width n) := by
  apply maintains_bind maintains_asserted
  intro _
  apply maintains_bind maintains_get
  intro s
  apply maintains_bind maintains_asserted
  intro _
  apply maintains_bind maintains_get
  intro s
  dsimp only
  have fewer : Maintains Few (modify fun s => { s with bi_ := s.bi_.without n } : SourceStep Unit) :=
    maintains_modify fun s few => Nat.le_trans (Nat.sub_le _ _) few
  exact maintains_bind fewer fun _ => maintains_pure _

end Source

section Work

variable {α : Type} {m : SourceStep α} {n : Nat}

theorem few_onSource (keeps : Maintains Source.Few m) : Maintains (fun w : Work => w.source.Few) (onSource m) :=
  maintains_zoom keeps (fun _ few => few) fun _ _ _ few => few

theorem few_modify {f : Work → Work} (same : ∀ w, (f w).source = w.source) :
    Maintains (fun w : Work => w.source.Few) (modify f : WriteStep Unit) :=
  maintains_modify fun w few => (same w).symm ▸ few

theorem few_need : Maintains (fun w : Work => w.source.Few) (need n) := by
  apply maintains_bind (few_onSource Source.few_fill)
  intro there
  split
  · exact maintains_stop _
  · exact maintains_pure _

theorem few_put (octets : Octets) : Maintains (fun w : Work => w.source.Few) (put octets) := by
  apply maintains_bind maintains_get
  intro w
  apply maintains_bind maintains_get
  intro w'
  split
  · exact maintains_stop _
  · exact few_modify fun _ => rfl

theorem few_lookup (t : Table) (isLink : Code → Bool) : Maintains (fun w : Work => w.source.Few) (lookup t isLink) := by
  apply maintains_bind few_need
  intro _
  apply maintains_bind (few_onSource (Source.few_peek 16))
  intro v
  dsimp only
  split
  · apply maintains_bind few_need
    intro _
    apply maintains_bind (few_onSource (Source.few_peek 16))
    intro v
    exact maintains_bind (few_onSource Source.few_drop) fun _ => maintains_pure _
  · exact maintains_bind (few_onSource Source.few_drop) fun _ => maintains_pure _

theorem few_readExtra : Maintains (fun w : Work => w.source.Few) (readExtra n) := by
  unfold readExtra
  split
  · exact maintains_bind few_need fun _ => few_onSource (Source.few_read 16)
  · exact maintains_pure _

theorem few_copyMatch : Maintains (fun w : Work => w.source.Few) copyMatch := by
  have output : ∀ offset n, Maintains (fun w : Work => w.source.Few) (copyOutput offset n) := by
    intro offset n
    induction n with
    | zero => exact maintains_pure _
    | succ n ih =>
      apply maintains_bind maintains_get
      intro w
      dsimp only
      split
      · exact maintains_stop _
      · exact maintains_bind (few_put _) fun _ => ih
  apply maintains_bind maintains_get
  intro w
  split
  · dsimp only
    split
    · exact maintains_bind (few_modify fun _ => rfl) fun _ => maintains_stop _
    · apply maintains_bind
      · apply maintains_bind maintains_get
        intro w
        exact maintains_bind (few_put _) fun _ => few_modify fun _ => rfl
      · exact fun _ => few_modify fun _ => rfl
  · exact maintains_bind (few_modify fun _ => rfl) fun _ => output _ _

/-- With checks no more bits are taken than the reservoir can hold. -/
theorem few_doMode (t : Codes) : Maintains (fun w : Work => w.source.Few) (doMode t) := by
  apply maintains_bind maintains_get
  intro w
  split
  · apply maintains_bind (few_lookup _ _)
    intro cp
    apply maintains_bind (few_modify (f := fun w => { w with length_ := cp.val }) fun _ => rfl)
    intro _
    split
    · exact few_modify fun _ => rfl
    · split
      · exact few_modify fun _ => rfl
      · split
        · exact maintains_bind (few_modify fun _ => rfl) fun _ => maintains_stop _
        · exact few_modify fun _ => rfl
  · apply maintains_bind maintains_get
    intro w
    exact maintains_bind few_readExtra fun _ => few_modify fun _ => rfl
  · apply maintains_bind (few_lookup _ _)
    intro cp
    split
    · exact maintains_bind (few_modify fun _ => rfl) fun _ => maintains_stop _
    · exact few_modify fun _ => rfl
  · apply maintains_bind maintains_get
    intro w
    exact maintains_bind few_readExtra fun _ => few_modify fun _ => rfl
  · apply maintains_bind maintains_get
    intro w
    split
    · exact maintains_stop _
    · apply maintains_bind few_copyMatch
      intro _
      apply maintains_bind maintains_get
      intro w
      split
      · exact few_modify fun _ => rfl
      · exact maintains_pure _
  · apply maintains_bind maintains_get
    intro w
    split
    · exact maintains_stop _
    · apply maintains_bind maintains_get
      intro w
      exact maintains_bind (few_put _) fun _ => few_modify fun _ => rfl
  · exact maintains_stop _

/-- Without checks the loop ends with less than an octet in the reservoir. -/
theorem few_inflate_fast {t : Codes} {w w' : Work} (ran : run (inflate_fast t) w = (.ok (), w')) : w'.source.Few := by
  obtain ⟨_, w₁, first, rest⟩ := bind_ok ran
  obtain ⟨_, w₂, second, rest⟩ := bind_ok rest
  obtain ⟨_, w₃, third, last⟩ := bind_ok rest
  rw [onSource, run_zoom, Source.rewind, run_get_bind] at last
  dsimp only at last
  split at last
  · cases last
  · cases last
    have part := Nat.mod_lt w₃.source.bi_.n_ (by decide : 0 < 8)
    exact Nat.le_trans part.le (by decide)

end Work

namespace TreeWork

variable {n : Nat}

/-- The reservoir is fine, and no error was reported. -/
def Calm (w : TreeWork) : Prop := w.source.Few ∧ w.ec = none

theorem calm_onSource {α : Type} {m : SourceStep α} (keeps : Maintains Source.Few m) :
    Maintains Calm (onSource m) :=
  maintains_zoom keeps (fun _ calm => calm.1) fun _ _ calm few => ⟨few, calm.2⟩

theorem calm_modify {f : TreeWork → TreeWork} (same : ∀ w, (f w).source = w.source ∧ (f w).ec = w.ec) :
    Maintains Calm (modify f : TreeStep Unit) := by
  apply maintains_modify
  rintro w ⟨few, clear⟩
  obtain ⟨source, ec⟩ := same w
  exact ⟨source ▸ few, ec.trans clear⟩

theorem calm_need : Maintains Calm (need n) := by
  apply maintains_bind (calm_onSource Source.few_fill)
  intro there
  split
  · exact maintains_stop _
  · exact maintains_pure _

/-- A step that stops maintains everything, whatever it reports. -/
theorem calm_stops {β : Type} (f : TreeWork → TreeWork) (h : Halt) :
    Maintains Calm (do modify f; Step.stop h : TreeStep β) := by
  intro w _ a t ran
  cases ran

theorem calm_err {β : Type} (e : TreeError) : Maintains Calm (err e : TreeStep β) := calm_stops _ _

theorem calm_setLen (i len : Nat) : Maintains Calm (setLen i len) :=
  calm_modify fun _ => ⟨rfl, rfl⟩

theorem calm_makeTable (type : Build) (lens : List Nat) (bits : Nat) (leave : Halt) :
    Maintains Calm (makeTable type lens bits leave) := by
  apply maintains_bind maintains_get
  intro w
  split
  · exact maintains_pure _
  · exact calm_stops _ _
  · exact calm_err _
  · exact maintains_stop _

theorem calm_doTABLE : Maintains Calm doTABLE := by
  apply maintains_bind calm_need
  intro _
  apply maintains_bind (calm_onSource (Source.few_read 32))
  intro nlen
  apply maintains_bind (calm_onSource (Source.few_read 32))
  intro ndist
  apply maintains_bind (calm_onSource (Source.few_read 32))
  intro ncode
  apply maintains_bind (calm_modify
    (f := fun w => { w with nlen_ := nlen + 257, ndist_ := ndist + 1, ncode_ := ncode + 4 }) fun _ => ⟨rfl, rfl⟩)
  intro _
  split
  · exact calm_err _
  · exact calm_modify fun _ => ⟨rfl, rfl⟩

theorem calm_doLENLENS : Maintains Calm doLENLENS := by
  have reads : ∀ more, Maintains Calm (readLens more) := by
    intro more
    induction more with
    | zero => exact maintains_pure _
    | succ more ih =>
      apply maintains_bind calm_need
      intro _
      apply maintains_bind (calm_onSource (Source.few_read 16))
      intro len
      apply maintains_bind maintains_get
      intro w
      apply maintains_bind (calm_setLen _ _)
      exact fun _ => maintains_bind (calm_modify (f := fun w => { w with have_ := w.have_ + 1 }) fun _ => ⟨rfl, rfl⟩) fun _ => ih
  have clears : ∀ more, Maintains Calm (clearLens more) := by
    intro more
    induction more with
    | zero => exact maintains_pure _
    | succ more ih =>
      apply maintains_bind maintains_get
      intro w
      apply maintains_bind (calm_setLen _ _)
      exact fun _ => maintains_bind (calm_modify (f := fun w => { w with have_ := w.have_ + 1 }) fun _ => ⟨rfl, rfl⟩) fun _ => ih
  apply maintains_bind maintains_get
  intro w
  apply maintains_bind maintains_get
  intro w
  apply maintains_bind (reads _)
  intro _
  apply maintains_bind maintains_get
  intro w
  apply maintains_bind (clears _)
  intro _
  apply maintains_bind maintains_get
  intro w
  apply maintains_bind (calm_makeTable _ _ _ _)
  exact fun _ => calm_modify fun _ => ⟨rfl, rfl⟩

theorem calm_readSymbol : Maintains Calm readSymbol := by
  have repeats : ∀ len copy, Maintains Calm (repeatLen len copy) := by
    intro len copy
    apply maintains_bind maintains_get
    intro w
    split
    · exact calm_err _
    · exact calm_modify fun _ => ⟨rfl, rfl⟩
  apply maintains_bind maintains_get
  intro w
  apply maintains_bind calm_need
  intro _
  apply maintains_bind (calm_onSource (Source.few_peek 16))
  intro v
  apply maintains_bind maintains_get
  intro w
  dsimp only
  split
  · apply maintains_bind (calm_onSource Source.few_drop)
    intro _
    apply maintains_bind maintains_get
    intro w
    apply maintains_bind (calm_setLen _ _)
    exact fun _ => calm_modify fun _ => ⟨rfl, rfl⟩
  · -- With each of the other symbols the last length, or zero, is repeated.
    split
    · apply maintains_bind calm_need
      intro _
      apply maintains_bind (calm_onSource Source.few_drop)
      intro _
      apply maintains_bind maintains_get
      intro w
      split
      · exact calm_err _
      · apply maintains_bind (calm_onSource (Source.few_read 16))
        intro copy
        apply maintains_bind maintains_get
        intro w
        apply maintains_bind maintains_get
        exact fun _ => repeats _ _
    · split
      · apply maintains_bind calm_need
        intro _
        apply maintains_bind (calm_onSource Source.few_drop)
        exact fun _ => maintains_bind (calm_onSource (Source.few_read 16)) fun _ => repeats _ _
      · apply maintains_bind calm_need
        intro _
        apply maintains_bind (calm_onSource Source.few_drop)
        exact fun _ => maintains_bind (calm_onSource (Source.few_read 16)) fun _ => repeats _ _

/-- Neither are more bits taken of trees. -/
theorem calm_doTrees : Maintains Calm doTrees := by
  have symbols : ∀ more, Maintains Calm (readSymbols more) := by
    intro more
    induction more with
    | zero => exact maintains_pure _
    | succ more ih =>
      apply maintains_bind maintains_get
      intro w
      apply maintains_bind maintains_get
      intro w
      apply maintains_bind maintains_get
      intro w
      split
      · exact maintains_bind calm_readSymbol fun _ => ih
      · exact maintains_pure _
  have tables : Maintains Calm makeTables := by
    apply maintains_bind maintains_get
    intro w
    apply maintains_bind maintains_get
    intro w
    apply maintains_bind (calm_makeTable _ _ _ _)
    intro t
    apply maintains_bind (calm_modify (f := fun w => { w with lencode_ := t }) fun _ => ⟨rfl, rfl⟩)
    intro _
    apply maintains_bind maintains_get
    intro w
    apply maintains_bind maintains_get
    intro w
    apply maintains_bind maintains_get
    intro w
    apply maintains_bind (calm_makeTable _ _ _ _)
    exact fun _ => calm_modify fun _ => ⟨rfl, rfl⟩
  have codes : Maintains Calm doCODELENS := by
    unfold doCODELENS
    apply maintains_bind maintains_get
    intro w
    apply maintains_bind maintains_get
    intro w
    apply maintains_bind maintains_get
    intro w
    apply maintains_bind (symbols _)
    intro _
    apply maintains_bind maintains_get
    intro w
    split
    · exact calm_err _
    · exact tables
  exact maintains_bind calm_doTABLE fun _ => maintains_bind calm_doLENLENS fun _ => codes

end TreeWork

end Beast.Zlib

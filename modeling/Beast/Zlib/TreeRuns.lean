import Beast.Zlib.TableBound
import Beast.Zlib.TreeModes

/-! The trees of a block, in any writes: what is known of the lengths so far, and that their tables fit. -/

namespace Beast.Zlib

open Step

namespace TreeWork

variable {α β : Type} {w : TreeWork} {n : Nat} {P : TreeWork → Prop} {Q : Except Halt β → TreeWork → Prop}

/-- The lengths of the bit length codes that were read so far are short. -/
structure Lenlens (w : TreeWork) : Prop where
  sizes : w.nlen_ ≤ 286 ∧ w.ndist_ ≤ 30
  short : ∀ k < w.have_, w.lens_ (order.getD k 0) ≤ 15

/-- The lengths of the codes that were read so far are short. -/
structure Codelens (w : TreeWork) : Prop where
  sizes : w.nlen_ ≤ 286 ∧ w.ndist_ ≤ 30
  short : ∀ i < w.have_, w.lens_ i ≤ 15

/-- What holds between two writes: the lengths so far are short, and nothing was thrown. -/
structure Steady (w : TreeWork) : Prop where
  fine : w.ec ≠ some .thrown
  lenlens : w.mode_ = .LENLENS → Lenlens w
  codelens : w.mode_ = .CODELENS → Codelens w

/-- What a mode comes to: the next one with what it needs, unless the write ends. -/
def comesTo (next : TreeWork → Prop) : Except Halt β → TreeWork → Prop :=
  orStop (fun w => w.ec ≠ some .thrown ∧ next w) Steady

/-! ## The input -/

/-- None of this looks at the input. -/
theorem Steady.source (steady : Steady w) (s : Source) : Steady { w with source := s } :=
  ⟨steady.fine, fun mode => ⟨(steady.lenlens mode).sizes, (steady.lenlens mode).short⟩,
    fun mode => ⟨(steady.codelens mode).sizes, (steady.codelens mode).short⟩⟩

theorem Lenlens.source (reading : Lenlens w) (s : Source) : Lenlens { w with source := s } :=
  ⟨reading.sizes, reading.short⟩

theorem Codelens.source (reading : Codelens w) (s : Source) : Codelens { w with source := s } :=
  ⟨reading.sizes, reading.short⟩

/-- Work on the input comes to a value, and leaves everything else alone. -/
theorem wp_onSource_bind {m : SourceStep α} {f : α → TreeStep β} (R : α → Prop)
    (value : ∀ s v t, Step.run m s = (.ok v, t) → R v) (next : ∀ v s, R v → wp (f v) Q { w with source := s })
    (stops : ∀ e s, Q (.error e) { w with source := s }) : wp (onSource m >>= f) Q w := by
  refine wp_bind.mpr ?_
  unfold wp onSource
  rw [run_zoom]
  rcases ran : Step.run m w.source with ⟨r, s⟩
  cases r with
  | error e => exact stops e s
  | ok v => exact next v s (value _ _ _ ran)

/-- A number that is read has so many bits. -/
theorem read_lt {width v : Nat} {s t : Source} (ran : Step.run (Source.read width n) s = (.ok v, t)) : v < 2 ^ n := by
  unfold Source.read at ran
  obtain ⟨_, _, -, ran⟩ := bind_ok ran
  rw [run_get_bind] at ran
  obtain ⟨_, _, -, ran⟩ := bind_ok ran
  rw [run_get_bind, run_modify_bind, run_pure] at ran
  injection ran with value
  injection value with value
  rw [← value]
  exact Nat.lt_of_le_of_lt (Nat.mod_le _ _) (Nat.mod_lt _ (Nat.two_pow_pos n))

theorem wp_read_bind {width : Nat} {f : Nat → TreeStep β}
    (next : ∀ v s, v < 2 ^ n → wp (f v) Q { w with source := s })
    (stops : ∀ e s, Q (.error e) { w with source := s }) : wp (onSource (Source.read width n) >>= f) Q w :=
  wp_onSource_bind (· < 2 ^ n) (fun _ _ _ ran => read_lt ran) next stops

/-- Where there are not enough bits, the write ends. -/
theorem wp_need_bind {f : Unit → TreeStep β} (next : ∀ s, wp (f ()) Q { w with source := s })
    (stops : ∀ e s, Q (.error e) { w with source := s }) : wp (need n >>= f) Q w := by
  unfold need
  rw [bind_assoc]
  refine wp_onSource_bind (fun _ => True) (fun _ _ _ _ => trivial) (fun enough s _ => ?_) stops
  cases enough with
  | true => exact next s
  | false => exact stops .done s

theorem wp_drop_bind {f : Unit → TreeStep β} (next : ∀ s, wp (f ()) Q { w with source := s })
    (stops : ∀ e s, Q (.error e) { w with source := s }) : wp (onSource (Source.drop n) >>= f) Q w :=
  wp_onSource_bind (fun _ => True) (fun _ _ _ _ => trivial) (fun _ s _ => next s) stops

/-! ## Each mode -/

/-- An error in the data is not one that is thrown. -/
theorem steady_bad {e : TreeError} (other : e ≠ .thrown) : Steady { w with mode_ := .BAD, ec := some e } :=
  ⟨fun same => other (Option.some.inj same), nofun, nofun⟩

/-- A table is made, or an error is reported, where no table of the lengths is thrown out. -/
theorem wp_makeTable_bind {type : Build} {lens : List Nat} {bits : Nat} {leave : Halt} {f : Table → TreeStep β}
    (fits : ∀ entries work, inflate_table type lens entries bits work ≠ .throws) (steady : Steady w)
    (next : ∀ t, wp (f t) (comesTo P) w) : wp (makeTable type lens bits leave >>= f) (comesTo P) w := by
  refine wp_bind.mpr ?_
  unfold makeTable
  rw [wp_get_bind]
  cases made : inflate_table type lens w.codes_ bits w.work_ with
  | table t used => exact next t
  | fails e => exact steady_bad nofun
  | throws => exact absurd made (fits _ _)
  | runs => exact steady

theorem wp_doTABLE (mode : w.mode_ = .TABLE) (fine : w.ec ≠ some .thrown) :
    wp doTABLE (comesTo fun w => w.mode_ = .LENLENS ∧ Lenlens w) w := by
  have stops : ∀ s, Steady { w with source := s } := fun s =>
    ⟨fine, fun other => (by rw [mode] at other; cases other), fun other => (by rw [mode] at other; cases other)⟩
  unfold doTABLE
  refine wp_need_bind (fun s => ?_) fun _ s => stops s
  refine wp_read_bind (fun nlen s _ => ?_) fun _ s => stops s
  refine wp_read_bind (fun ndist s _ => ?_) fun _ s => stops s
  refine wp_read_bind (fun ncode s _ => ?_) fun _ s => stops s
  rw [wp_modify_bind]
  refine wp_ite (fun many => steady_bad nofun) fun few => ?_
  rw [not_or, Nat.not_lt, Nat.not_lt] at few
  exact ⟨fine, rfl, few, nofun⟩

/-- The length of another bit length code is short, too. -/
theorem Lenlens.next (reading : Lenlens w) {len : Nat} (short : len ≤ 15) :
    Lenlens { w with lens_ := Function.update w.lens_ (order.getD w.have_ 0) len, have_ := w.have_ + 1 } := by
  refine ⟨reading.sizes, fun k before => ?_⟩
  dsimp only at before ⊢
  rw [Function.update_apply]
  split
  · exact short
  · rename_i other
    refine reading.short k (Nat.lt_of_le_of_ne (Nat.le_of_lt_succ before) fun same => other ?_)
    rw [same]

theorem Lenlens.steady (reading : Lenlens w) (mode : w.mode_ = .LENLENS) (fine : w.ec ≠ some .thrown) : Steady w :=
  ⟨fine, fun _ => reading, fun other => (by rw [mode] at other; cases other)⟩

theorem wp_readLens (mode : w.mode_ = .LENLENS) (fine : w.ec ≠ some .thrown) (reading : Lenlens w) :
    wp (readLens n) (comesTo fun w' => w'.mode_ = .LENLENS ∧ Lenlens w' ∧ w'.have_ = w.have_ + n) w := by
  -- Where the write ends, another one goes on with the lengths so far.
  induction n generalizing w with
  | zero => exact ⟨fine, mode, reading, rfl⟩
  | succ n ih =>
    have steady := reading.steady mode fine
    refine wp_need_bind (fun s => ?_) fun _ s => steady.source s
    refine wp_read_bind (fun len s short => ?_) fun _ s => steady.source s
    refine wp_mono (ih mode fine ((reading.source s).next (by omega))) fun r w' behind => ?_
    cases r with
    | error e => exact behind
    | ok _ =>
      obtain ⟨fine', mode', reading', have'⟩ := behind
      exact ⟨fine', mode', reading', by rw [have', Nat.add_assoc, Nat.add_comm 1 n]⟩

theorem wp_clearLens (mode : w.mode_ = .LENLENS) (fine : w.ec ≠ some .thrown) (reading : Lenlens w) :
    wp (clearLens n) (comesTo fun w' => w'.mode_ = .LENLENS ∧ Lenlens w' ∧ w'.have_ = w.have_ + n) w := by
  induction n generalizing w with
  | zero => exact ⟨fine, mode, reading, rfl⟩
  | succ n ih =>
    refine wp_mono (ih mode fine (reading.next (Nat.zero_le 15))) fun r w' behind => ?_
    cases r with
    | error e => exact behind
    | ok _ =>
      obtain ⟨fine', mode', reading', have'⟩ := behind
      exact ⟨fine', mode', reading', by rw [have', Nat.add_assoc, Nat.add_comm 1 n]⟩

/-- All lengths of bit length codes are short where there are as many as their order has. -/
theorem Lenlens.all (reading : Lenlens w) (enough : order.length ≤ w.have_) :
    ∀ l ∈ w.lensOf 0 order.length, l ≤ 15 := by
  refine List.forall_mem_map.mpr fun i member => ?_
  have inside := (List.mem_range'_1.mp member).2
  have placed : ∀ i < 0 + order.length, ∃ k < order.length, order.getD k 0 = i := by decide
  obtain ⟨k, within, rfl⟩ := placed i inside
  exact reading.short k (Nat.lt_of_lt_of_le within enough)

theorem wp_doLENLENS (mode : w.mode_ = .LENLENS) (fine : w.ec ≠ some .thrown) (reading : Lenlens w) :
    wp doLENLENS (comesTo fun w => w.mode_ = .CODELENS ∧ Codelens w) w := by
  unfold doLENLENS
  rw [wp_get_bind, wp_get_bind]
  refine wp_bind.mpr (wp_mono (wp_readLens mode fine reading) fun r w₁ behind => ?_)
  cases r with
  | error e => exact behind
  | ok _ =>
    obtain ⟨fine₁, mode₁, reading₁, -⟩ := behind
    dsimp only
    rw [wp_get_bind]
    refine wp_bind.mpr (wp_mono (wp_clearLens mode₁ fine₁ reading₁) fun r w₂ behind => ?_)
    cases r with
    | error e => exact behind
    | ok _ =>
      obtain ⟨fine₂, mode₂, reading₂, have₂⟩ := behind
      dsimp only
      rw [wp_get_bind]
      have short := reading₂.all (by omega)
      refine wp_makeTable_bind (fun entries work => ?_) (reading₂.steady mode₂ fine₂) fun t =>
        ⟨fine₂, rfl, reading₂.sizes, nofun⟩
      refine codes_fit short ?_ entries 7 work
      rw [lensOf, List.length_map, List.length_range']
      decide

theorem Codelens.steady (reading : Codelens w) (mode : w.mode_ = .CODELENS) (fine : w.ec ≠ some .thrown) : Steady w :=
  ⟨fine, fun other => (by rw [mode] at other; cases other), fun _ => reading⟩

/-- Another length is short, too. -/
theorem Codelens.next (reading : Codelens w) {len : Nat} (short : len ≤ 15) :
    Codelens { w with lens_ := Function.update w.lens_ w.have_ len, have_ := w.have_ + 1 } := by
  refine ⟨reading.sizes, fun i before => ?_⟩
  dsimp only at before ⊢
  rw [Function.update_apply]
  split
  · exact short
  · exact reading.short i (by omega)

/-- So are lengths that are repeated. -/
theorem Codelens.repeated (reading : Codelens w) {len : Nat} (short : len ≤ 15) (copy : Nat) :
    Codelens { w with
      lens_ := fun i => if w.have_ ≤ i ∧ i < w.have_ + copy then len else w.lens_ i
      have_ := w.have_ + copy } := by
  refine ⟨reading.sizes, fun i before => ?_⟩
  dsimp only at before ⊢
  split
  · exact short
  · exact reading.short i (by omega)

/-- What one symbol comes to: more lengths, which are short. -/
def Further (w w' : TreeWork) : Prop :=
  w'.mode_ = .CODELENS ∧ Codelens w' ∧ w.have_ < w'.have_ ∧ w'.nlen_ = w.nlen_ ∧ w'.ndist_ = w.ndist_

theorem wp_repeatLen {len copy : Nat} (mode : w.mode_ = .CODELENS) (fine : w.ec ≠ some .thrown)
    (reading : Codelens w) (short : len ≤ 15) : wp (repeatLen len (copy + 3)) (comesTo (Further w)) w := by
  unfold repeatLen
  rw [wp_get_bind]
  exact wp_ite (fun many => steady_bad nofun) fun few =>
    ⟨fine, mode, reading.repeated short _, Nat.lt_add_of_pos_right (Nat.succ_pos _), rfl, rfl⟩

theorem wp_readSymbol (mode : w.mode_ = .CODELENS) (fine : w.ec ≠ some .thrown) (reading : Codelens w) :
    wp readSymbol (comesTo (Further w)) w := by
  have steady := reading.steady mode fine
  unfold readSymbol
  rw [wp_get_bind]
  refine wp_need_bind (fun s => ?_) fun _ s => steady.source s
  refine wp_onSource_bind (fun _ => True) (fun _ _ _ _ => trivial) (fun v s _ => ?_) fun _ s => steady.source s
  rw [wp_get_bind]
  dsimp only
  -- A length is written, or one of three kinds of repetitions is read.
  refine wp_ite (fun small => ?_) fun _ => wp_ite (fun _ => ?_) fun _ => wp_ite (fun _ => ?_) fun _ => ?_
  · refine wp_drop_bind (fun s => ?_) fun _ s => steady.source s
    rw [wp_get_bind]
    exact ⟨fine, mode, (reading.source _).next (Nat.le_of_lt_succ small), Nat.lt_succ_self _, rfl, rfl⟩
  · refine wp_need_bind (fun s => ?_) fun _ s => steady.source s
    refine wp_drop_bind (fun s => ?_) fun _ s => steady.source s
    rw [wp_get_bind]
    refine wp_ite (fun none => steady_bad nofun) fun some_ => ?_
    refine wp_read_bind (fun copy s _ => ?_) fun _ s => steady.source s
    rw [wp_get_bind]
    exact wp_repeatLen mode fine (reading.source _)
      (reading.short _ (Nat.sub_lt (Nat.pos_of_ne_zero some_) Nat.one_pos))
  · refine wp_need_bind (fun s => ?_) fun _ s => steady.source s
    refine wp_drop_bind (fun s => ?_) fun _ s => steady.source s
    refine wp_read_bind (fun copy s _ => ?_) fun _ s => steady.source s
    exact wp_repeatLen mode fine (reading.source _) (Nat.zero_le 15)
  · refine wp_need_bind (fun s => ?_) fun _ s => steady.source s
    refine wp_drop_bind (fun s => ?_) fun _ s => steady.source s
    refine wp_read_bind (fun copy s _ => ?_) fun _ s => steady.source s
    exact wp_repeatLen mode fine (reading.source _) (Nat.zero_le 15)

/-- Symbols are read until there are enough lengths. -/
theorem wp_readSymbols (mode : w.mode_ = .CODELENS) (fine : w.ec ≠ some .thrown) (reading : Codelens w)
    (enough : w.nlen_ + w.ndist_ ≤ w.have_ + n) :
    wp (readSymbols n) (comesTo fun w' => w'.mode_ = .CODELENS ∧ Codelens w' ∧ w'.nlen_ + w'.ndist_ ≤ w'.have_) w := by
  induction n generalizing w with
  | zero => exact ⟨fine, mode, reading, enough⟩
  | succ n ih =>
    unfold readSymbols
    rw [wp_get_bind, wp_get_bind]
    refine wp_ite (fun left => ?_) fun done => ⟨fine, mode, reading, Nat.not_lt.mp done⟩
    refine wp_bind.mpr (wp_mono (wp_readSymbol mode fine reading) fun r w' behind => ?_)
    cases r with
    | error e => exact behind
    | ok _ =>
      obtain ⟨fine', mode', reading', more, nlen, ndist⟩ := behind
      exact ih mode' fine' reading' (by omega)

/-- Lengths that were all read are short. -/
theorem Codelens.all {first count : Nat} (reading : Codelens w) (enough : first + count ≤ w.have_) :
    ∀ l ∈ w.lensOf first count, l ≤ 15 :=
  List.forall_mem_map.mpr fun i member =>
    reading.short i (Nat.lt_of_lt_of_le (List.mem_range'_1.mp member).2 enough)

theorem wp_doCODELENS (mode : w.mode_ = .CODELENS) (fine : w.ec ≠ some .thrown) (reading : Codelens w) :
    wp doCODELENS (comesTo fun w => w.mode_ = .LEN_) w := by
  unfold doCODELENS
  rw [wp_get_bind, wp_get_bind, wp_get_bind]
  refine wp_bind.mpr (wp_mono (wp_readSymbols mode fine reading (by omega)) fun r w₁ behind => ?_)
  cases r with
  | error e => exact behind
  | ok _ =>
    obtain ⟨fine₁, mode₁, reading₁, enough⟩ := behind
    dsimp only
    rw [wp_get_bind]
    refine wp_ite (fun none => steady_bad nofun) fun some_ => ?_
    unfold makeTables
    rw [wp_get_bind, wp_get_bind]
    have lens : ∀ l ∈ w₁.lensOf 0 w₁.nlen_, l ≤ 15 := reading₁.all (by omega)
    refine wp_makeTable_bind (fun entries work => ?_) (reading₁.steady mode₁ fine₁) fun t => ?_
    · refine (lens_table_fits lens ?_ entries work).1
      rw [lensOf, List.length_map, List.length_range']
      exact reading₁.sizes.1
    rw [wp_modify_bind, wp_get_bind, wp_get_bind]
    have dists : ∀ l ∈ w₁.lensOf w₁.nlen_ w₁.ndist_, l ≤ 15 := reading₁.all enough
    have reading₂ : Codelens { w₁ with lencode_ := t } := ⟨reading₁.sizes, reading₁.short⟩
    refine wp_makeTable_bind (fun entries work => ?_) (reading₂.steady mode₁ fine₁) fun t => ⟨fine₁, rfl⟩
    refine (dists_table_fits dists ?_ entries work).1
    rw [lensOf, List.length_map, List.length_range']
    exact reading₁.sizes.2

/-! ## Any writes -/

/-- Behind a mode that was left, there is nothing that is thrown. -/
theorem steady_behind {next : TreeWork → Prop} {m : TreeStep Unit} (last : ∀ w, next w → w.mode_ = .LEN_)
    (comes : wp m (comesTo next) w) : Steady (Step.run m w).2 := by
  rcases ran : Step.run m w with ⟨r, w'⟩
  rw [wp_run ran] at comes
  cases r with
  | error e => exact comes
  | ok _ =>
    obtain ⟨fine, behind⟩ := comes
    have mode := last w' behind
    exact ⟨fine, fun other => (by rw [mode] at other; cases other), fun other => (by rw [mode] at other; cases other)⟩

/-- A write leaves what it found between two writes. -/
theorem doModes_steady (steady : Steady w) : Steady (Step.run doModes w).2 := by
  have afterLenlens : ∀ {w}, w.mode_ = .LENLENS → w.ec ≠ some .thrown → Lenlens w →
      wp (doLENLENS >>= fun _ => doCODELENS) (comesTo fun w => w.mode_ = .LEN_) w := by
    intro w mode fine reading
    refine wp_bind.mpr (wp_mono (wp_doLENLENS mode fine reading) fun r w' behind => ?_)
    cases r with
    | error e => exact behind
    | ok _ =>
      obtain ⟨fine', mode', reading'⟩ := behind
      exact wp_doCODELENS mode' fine' reading'
  unfold doModes
  rw [run_get_bind]
  split
  · rename_i mode
    refine steady_behind (fun _ last => last) ?_
    unfold doTrees
    refine wp_bind.mpr (wp_mono (wp_doTABLE mode steady.fine) fun r w' behind => ?_)
    cases r with
    | error e => exact behind
    | ok _ =>
      obtain ⟨fine', mode', reading'⟩ := behind
      exact afterLenlens mode' fine' reading'
  · rename_i mode
    exact steady_behind (fun _ last => last) (afterLenlens mode steady.fine (steady.lenlens mode))
  · rename_i mode
    exact steady_behind (fun _ last => last) (wp_doCODELENS mode steady.fine (steady.codelens mode))
  · exact steady

/-- So do any writes. -/
theorem writes_steady (inputs : List Source) (steady : Steady w) : Steady (w.writes inputs) := by
  induction inputs generalizing w with
  | nil => exact steady
  | cons s inputs ih => exact ih (doModes_steady (steady.source s))

end TreeWork

open TreeWork

/-- The tables of a block fit: those for literals and lengths in 852 entries, those for distances in 592, and no
writes whatsoever end with the error that is thrown otherwise. -/
theorem tables_always_fit :
    (∀ lens : List Nat, lens.length ≤ 286 → (∀ l ∈ lens, l ≤ 15) → ∀ entries work,
      inflate_table .lens lens entries 9 work ≠ .throws ∧
        ∀ t used, inflate_table .lens lens entries 9 work = .table t used → used ≤ 852) ∧
    (∀ lens : List Nat, lens.length ≤ 30 → (∀ l ∈ lens, l ≤ 15) → ∀ entries work,
      inflate_table .dists lens entries 6 work ≠ .throws ∧
        ∀ t used, inflate_table .dists lens entries 6 work = .table t used → used ≤ 592) ∧
    ∀ (w : TreeWork) (inputs : List Source), w.mode_ = .TABLE → w.ec = none →
      (w.writes inputs).ec ≠ some .thrown := by
  refine ⟨fun lens few bounded => lens_table_fits bounded few, fun lens few bounded => dists_table_fits bounded few,
    fun w inputs mode fine => (writes_steady inputs ⟨?_, ?_, ?_⟩).fine⟩
  · rw [fine]
    nofun
  · rw [mode]
    nofun
  · rw [mode]
    nofun

theorem tables_always_fit_four :
    ∀ t used, inflate_table .lens [2, 2, 2, 2] (fun _ => ⟨0, 0, 0⟩) 9 (fun _ => 0) = .table t used → used ≤ 852 :=
  (tables_always_fit.1 [2, 2, 2, 2] (by decide) (by decide) _ _).2

end Beast.Zlib

import Beast.Zlib.HeapLaws
import Beast.Zlib.SendTrees

/-! The bit length symbols of a tree: what they are counted and sent as, and what they stand for. -/

namespace Beast.Zlib

/-- A bit length symbol, with the value of its extra bits. -/
abbrev Item := Nat × Nat

/-- The symbols of a run of equal bit lengths. -/
def runItems (prevlen : Int) (curlen count min_count : Nat) : List Item :=
  if count < min_count then List.replicate count (curlen, 0)
  else if curlen ≠ 0 then
    if curlen ≠ prevlen then [(curlen, 0), (REP_3_6, count - 1 - 3)] else [(REP_3_6, count - 3)]
  else if count ≤ 10 then [(REPZ_3_10, count - 3)]
  else [(REPZ_11_138, count - 11)]

/-- The symbols of the runs that the loop over the bit lengths comes to. -/
def loopItems (tree : Tree) :
    (more n : Nat) → (prevlen : Int) → (nextlen count max_count min_count : Nat) → List Item
  | 0, _, _, _, _, _, _ => []
  | more + 1, n, prevlen, curlen, count, max_count, min_count =>
    let nextlen := (tree (n + 1)).dl
    if count + 1 < max_count ∧ curlen = nextlen then
      loopItems tree more (n + 1) prevlen nextlen (count + 1) max_count min_count
    else
      runItems prevlen curlen (count + 1) min_count ++
        loopItems tree more (n + 1) curlen nextlen 0 (repeatCounts curlen nextlen).1
          (repeatCounts curlen nextlen).2

/-- The bit length symbols of a tree. -/
def treeItems (tree : Tree) (max_code : Int) : List Item :=
  loopItems tree (max_code + 1).toNat 0 (-1) (tree 0).dl 0 (repeatCounts (-1) (tree 0).dl).1
    (repeatCounts (-1) (tree 0).dl).2

/-- A run that the loop may come to. -/
structure RunFits (prevlen : Int) (curlen count min_count : Nat) : Prop where
  some_ : 0 < count
  most : count ≤ (repeatCounts prevlen curlen).1
  least : min_count = (repeatCounts prevlen curlen).2

variable {σ : Type} {act : Int → Nat → Nat → Nat → σ → σ} {step : σ → Item → σ} {tree : Tree}
  {prevlen : Int} {curlen nextlen count max_count min_count more n : Nat} {P : Nat → Prop}

theorem repeatCounts_positive (prevlen : Int) (curlen : Nat) : 0 < (repeatCounts prevlen curlen).1 := by
  rw [repeatCounts]
  split
  · decide
  · split <;> decide

/-- What is done run by run can be done symbol by symbol. -/
theorem walkLoop_eq (all : ∀ i < n + more, P (tree i).dl) (own : nextlen = (tree n).dl)
    (agree : ∀ p c k m s, P c → RunFits p c k m → act p c k m s = (runItems p c k m).foldl step s)
    (counts : (max_count, min_count) = repeatCounts prevlen nextlen) (below : count < max_count) (s : σ) :
    walkLoop act tree more n prevlen nextlen count max_count min_count s =
      (loopItems tree more n prevlen nextlen count max_count min_count).foldl step s := by
  induction more generalizing n prevlen nextlen count max_count min_count s with
  | zero => rfl
  | succ more ih =>
    have rest : ∀ i < n + 1 + more, P (tree i).dl := fun i inside => all i (by omega)
    rw [walkLoop, loopItems]
    dsimp only
    split
    · rename_i both
      rw [both.2] at counts
      exact ih rest rfl counts both.1 s
    · have fits : RunFits prevlen nextlen (count + 1) min_count := by
        refine ⟨Nat.succ_pos _, ?_, ?_⟩
        · rw [← counts]
          exact below
        · rw [← counts]
      have later : ((repeatCounts nextlen (tree (n + 1)).dl).1, (repeatCounts nextlen (tree (n + 1)).dl).2) =
          repeatCounts nextlen (tree (n + 1)).dl := rfl
      rw [agree _ _ _ _ _ (own ▸ all n (by omega)) fits, List.foldl_append]
      exact ih rest rfl later (repeatCounts_positive _ _) _

theorem walk_tree_eq {max_code : Int} (all : ∀ i < (max_code + 1).toNat, P (tree i).dl)
    (agree : ∀ p c k m s, P c → RunFits p c k m → act p c k m s = (runItems p c k m).foldl step s) (s : σ) :
    walk_tree act tree max_code s = (treeItems tree max_code).foldl step s := by
  -- Nothing is in front of the first length, so that it is none that is repeated.
  have first : (if (tree 0).dl = 0 then (138, 3) else (7, 4)) = repeatCounts (-1) (tree 0).dl := by
    rw [repeatCounts]
    split
    · rfl
    · rw [if_neg (by omega)]
  rw [walk_tree, first]
  exact walkLoop_eq (fun i inside => all i (by omega)) rfl agree rfl (repeatCounts_positive _ _) s

/-! ## Counting -/

theorem Tree.addFc_add (tree : Tree) (n j k : Nat) :
    (tree.addFc n j).addFc n k = tree.addFc n (j + k) := by
  funext m
  rw [addFc, addFc, addFc, setFc, setFc, setFc, setFc]
  by_cases same : m = n
  · rw [if_pos same, if_pos same, if_pos same, if_pos rfl]
    dsimp only
    rw [Nat.mod_add_mod, Nat.add_assoc]
  · rw [if_neg same, if_neg same, if_neg same]

theorem foldl_replicate_addFc (tree : Tree) (n k v : Nat) :
    (List.replicate (k + 1) (n, v)).foldl (fun t (it : Item) => t.addFc it.1 1) tree =
      tree.addFc n (k + 1) := by
  induction k generalizing tree with
  | zero => rfl
  | succ k ih =>
    rw [List.replicate_succ, List.foldl_cons, ih, Tree.addFc_add, Nat.add_comm 1]

/-- Each symbol of a run is counted once. -/
theorem scanRun_eq (fits : RunFits prevlen curlen count min_count) (bl_tree : Tree) :
    scanRun prevlen curlen count min_count bl_tree =
      (runItems prevlen curlen count min_count).foldl (fun t it => t.addFc it.1 1) bl_tree := by
  rw [scanRun, runItems]
  split
  · obtain ⟨k, rfl⟩ := Nat.exists_eq_add_of_lt fits.some_
    rw [Nat.zero_add, foldl_replicate_addFc]
  · split
    · split <;> rfl
    · split <;> rfl

/-- Scanning a tree counts the symbols of the tree. -/
theorem scan_tree_eq (tree : Tree) (max_code : Int) (bl_tree : Tree) :
    (scan_tree tree max_code bl_tree).2 =
      (treeItems (tree.setDl (max_code + 1).toNat 0xffff) max_code).foldl
        (fun t it => t.addFc it.1 1) bl_tree :=
  walk_tree_eq (P := fun _ => True) (fun _ _ => trivial) (fun _ _ _ _ s _ fits => scanRun_eq fits s) bl_tree

/-- A symbol is counted as often as it is there. -/
theorem fc_foldl_addFc {α : Type*} (f : α → Nat) (things : List α) (tree : Tree) (x : Nat)
    (small : (tree x).fc < 2 ^ 16) :
    ((things.foldl (fun t a => t.addFc (f a) 1) tree) x).fc =
      ((tree x).fc + things.countP fun a => f a = x) % 2 ^ 16 := by
  induction things generalizing tree with
  | nil => exact (Nat.mod_eq_of_lt small).symm
  | cons a things ih =>
    have own : (tree.addFc (f a) 1 x).fc = if f a = x then ((tree x).fc + 1) % 2 ^ 16 else (tree x).fc := by
      rw [Tree.addFc, Tree.setFc_fc]
      by_cases same : f a = x
      · rw [if_pos same.symm, if_pos same, same]
      · rw [if_neg (Ne.symm same), if_neg same]
    rw [List.foldl_cons, ih _ (by rw [own]; split <;> omega), own, List.countP_cons]
    by_cases same : f a = x
    · simp only [same, if_true, decide_true]
      omega
    · simp [same]

/-! ## Sending -/

/-- What a symbol is sent as: its code, and its extra bits where it has any. -/
def itemFields (bl_tree : Tree) (it : Item) : List BitField :=
  if it.1 < REP_3_6 then [((bl_tree it.1).fc, (bl_tree it.1).dl)]
  else [((bl_tree it.1).fc, (bl_tree it.1).dl), (it.2, bl_desc.xbits it.1)]

theorem sendCodes_eq (bl_tree : Tree) (value v : Nat) (short : value < REP_3_6) (k : Nat) (s : Sink) :
    Sink.sendCodes value bl_tree k s =
      s.send ((List.replicate k (value, v)).flatMap (itemFields bl_tree)) := by
  induction k generalizing s with
  | zero => rfl
  | succ k ih =>
    rw [Sink.sendCodes, ih, List.replicate_succ, List.flatMap_cons, Sink.send_append, itemFields,
      if_pos short]
    rfl

/-- Each symbol of a run is sent once, and the assertion holds. -/
theorem sendRun_eq (fits : RunFits prevlen curlen count min_count) (short : curlen < REP_3_6)
    (bl_tree : Tree) (s : Sink) :
    sendRun bl_tree prevlen curlen count min_count (some s) =
      some (s.send ((runItems prevlen curlen count min_count).flatMap (itemFields bl_tree))) := by
  have most := fits.most
  have least := fits.least
  rw [repeatCounts] at most least
  have code : ∀ s : Sink, s.send (itemFields bl_tree (curlen, 0)) = s.send_code curlen bl_tree := fun s => by
    rw [itemFields, if_pos short]
    rfl
  rw [sendRun, runItems]
  dsimp only [bind, Option.bind]
  split
  · rw [sendCodes_eq bl_tree curlen 0 short]
    rfl
  · rename_i enough
    split
    · rename_i some_
      rw [if_neg some_] at most least
      split
      · rename_i other
        rw [if_neg (Ne.symm other)] at most least
        rw [if_pos (by dsimp only at most least ⊢; omega), List.flatMap_cons, Sink.send_append, code]
        rfl
      · rename_i same
        rw [if_pos (not_not.mp same).symm] at most least
        rw [if_pos (by dsimp only at most least ⊢; omega)]
        rfl
    · split <;> rfl

/-- Sending a tree sends the symbols of the tree, one after another, and no assertion fails. -/
theorem send_tree_eq {max_code : Int} (short : ∀ i < (max_code + 1).toNat, (tree i).dl < REP_3_6)
    (bl_tree : Tree) (s : Sink) :
    send_tree bl_tree tree max_code s =
      some (s.send ((treeItems tree max_code).flatMap (itemFields bl_tree))) := by
  have folded : ∀ (items : List Item) (s : Sink),
      items.foldl (fun (s : Option Sink) it => s.map fun s => s.send (itemFields bl_tree it)) (some s) =
        some (s.send (items.flatMap (itemFields bl_tree))) := by
    intro items
    induction items with
    | nil => exact fun s => rfl
    | cons it items ih =>
      intro s
      rw [List.foldl_cons, Option.map_some, ih, List.flatMap_cons, Sink.send_append]
  have lost : ∀ items : List Item,
      items.foldl (fun (s : Option Sink) it => s.map fun s => s.send (itemFields bl_tree it)) none = none := by
    intro items
    induction items with
    | nil => rfl
    | cons it items ih => exact ih
  rw [send_tree, walk_tree_eq (P := fun c => c < REP_3_6) short fun p c k m s c_short fits => ?_, folded]
  cases s with
  | none =>
    rw [lost]
    rfl
  | some s => rw [sendRun_eq fits c_short, folded]

/-! ## Expanding -/

/-- The lengths behind a symbol. -/
def expand (lens : List Nat) (it : Item) : List Nat :=
  if it.1 < REP_3_6 then lens ++ [it.1]
  else if it.1 = REP_3_6 then lens ++ List.replicate (3 + it.2) (lens.getLast?.getD 0)
  else if it.1 = REPZ_3_10 then lens ++ List.replicate (3 + it.2) 0
  else lens ++ List.replicate (11 + it.2) 0

/-- Some symbols come to some lengths, and none repeats a length that is not there. -/
def Expands : List Nat → List Item → List Nat → Prop
  | lens, [], all => lens = all
  | lens, it :: items, all =>
    (it.1 = REP_3_6 → lens ≠ []) ∧ it.1 ≤ REPZ_11_138 ∧ it.2 < 2 ^ bl_desc.xbits it.1 ∧
      Expands (expand lens it) items all

variable {lens mid all : List Nat} {items more_ : List Item}

theorem Expands.append (first : Expands lens items mid) (second : Expands mid more_ all) :
    Expands lens (items ++ more_) all := by
  induction items generalizing lens with
  | nil =>
    rw [show lens = mid from first]
    exact second
  | cons it items ih => exact ⟨first.1, first.2.1, first.2.2.1, ih first.2.2.2⟩

/-- Each symbol is for a length at least. -/
theorem length_expand (lens : List Nat) (it : Item) : lens.length < (expand lens it).length := by
  rw [expand]
  split
  · simp
  · split
    · simp
    · split <;> simp

theorem Expands.length_le (expands : Expands lens items all) : lens.length + items.length ≤ all.length := by
  induction items generalizing lens with
  | nil => exact Nat.le_of_eq (congrArg List.length expands)
  | cons it items ih =>
    have rest := ih expands.2.2.2
    have grown := length_expand lens it
    rw [List.length_cons]
    omega

theorem Expands.symbols (expands : Expands lens items all) :
    ∀ it ∈ items, it.1 ≤ REPZ_11_138 ∧ it.2 < 2 ^ bl_desc.xbits it.1 := by
  induction items generalizing lens with
  | nil => exact fun it member => absurd member List.not_mem_nil
  | cons first items ih =>
    intro it member
    rcases List.mem_cons.mp member with rfl | later
    · exact ⟨expands.2.1, expands.2.2.1⟩
    · exact ih expands.2.2.2 it later

/-- Without a symbol for a length itself there are zeros alone. -/
theorem Expands.zeros (expands : Expands lens items all) (repeats : ∀ it ∈ items, REP_3_6 ≤ it.1)
    (zeros : ∀ l ∈ lens, l = 0) : ∀ l ∈ all, l = 0 := by
  induction items generalizing lens with
  | nil =>
    rw [← show lens = all from expands]
    exact zeros
  | cons it items ih =>
    refine ih expands.2.2.2 (fun it' member => repeats it' (List.mem_cons_of_mem _ member)) ?_
    have last : lens.getLast?.getD 0 = 0 := by
      cases found : lens.getLast? with
      | none => rfl
      | some l => exact zeros l (List.mem_of_getLast? found)
    rw [expand, if_neg (Nat.not_lt.mpr (repeats it List.mem_cons_self)), last]
    intro l member
    split at member
    · exact (List.mem_append.mp member).elim (zeros l) List.eq_of_mem_replicate
    · split at member <;> exact (List.mem_append.mp member).elim (zeros l) List.eq_of_mem_replicate

theorem expands_replicate (short : curlen < REP_3_6) (lens : List Nat) (k : Nat) :
    Expands lens (List.replicate k (curlen, 0)) (lens ++ List.replicate k curlen) := by
  induction k generalizing lens with
  | zero => exact (List.append_nil lens).symm
  | succ k ih =>
    have rest := ih (lens ++ [curlen])
    rw [List.append_assoc, List.singleton_append, ← List.replicate_succ] at rest
    refine ⟨fun repeat_ => absurd repeat_ (Nat.ne_of_lt short), ?_, Nat.two_pow_pos _, ?_⟩
    · dsimp only
      rw [REP_3_6] at short
      rw [REPZ_11_138]
      omega
    · rw [expand, if_pos short]
      exact rest

/-- The last length is repeated. -/
theorem expands_repeat (front : List Nat) {k : Nat} (low : 3 ≤ k) (high : k ≤ 6) :
    Expands (front ++ [curlen]) [(REP_3_6, k - 3)] (front ++ [curlen] ++ List.replicate k curlen) := by
  refine ⟨fun _ => by simp, Nat.le_of_ble_eq_true rfl, ?_, ?_⟩
  · change k - 3 < 2 ^ 2
    omega
  · change front ++ [curlen] ++ List.replicate (3 + (k - 3)) ((front ++ [curlen]).getLast?.getD 0) = _
    rw [List.getLast?_concat, Option.getD_some, Nat.add_sub_cancel' low]

/-- Zeros are repeated. -/
theorem expands_zeros (lens : List Nat) {k : Nat} (low : 3 ≤ k) (high : k ≤ 138) :
    Expands lens (if k ≤ 10 then [(REPZ_3_10, k - 3)] else [(REPZ_11_138, k - 11)])
      (lens ++ List.replicate k 0) := by
  split
  · refine ⟨fun repeat_ => absurd repeat_ (Nat.ne_of_beq_eq_false rfl), Nat.le_of_ble_eq_true rfl, ?_, ?_⟩
    · change k - 3 < 2 ^ 3
      omega
    · change lens ++ List.replicate (3 + (k - 3)) 0 = _
      rw [Nat.add_sub_cancel' low]
  · refine ⟨fun repeat_ => absurd repeat_ (Nat.ne_of_beq_eq_false rfl), Nat.le_of_ble_eq_true rfl, ?_, ?_⟩
    · change k - 11 < 2 ^ 7
      omega
    · change lens ++ List.replicate (11 + (k - 11)) 0 = _
      rw [Nat.add_sub_cancel' (by omega)]

/-- The symbols of a run come to the run, behind lengths that end with the one in front of it. -/
theorem expands_run (fits : RunFits prevlen curlen count min_count) (short : curlen < REP_3_6)
    (last : (curlen : Int) = prevlen → ∃ front, lens = front ++ [curlen]) :
    Expands lens (runItems prevlen curlen count min_count) (lens ++ List.replicate count curlen) := by
  have most := fits.most
  have least := fits.least
  have some_ := fits.some_
  rw [repeatCounts] at most least
  rw [runItems]
  split
  · exact expands_replicate short lens count
  · rename_i enough
    split
    · rename_i not_zero
      rw [if_neg not_zero] at most least
      -- The length itself is repeated, behind one that is sent where it is not there yet.
      split
      · rename_i other
        rw [if_neg (Ne.symm other)] at most least
        dsimp only at most least
        have both := (expands_replicate short lens 1).append
          (expands_repeat lens (k := count - 1) (by omega) (by omega))
        rw [List.append_assoc, List.singleton_append, ← List.replicate_succ,
          Nat.sub_add_cancel some_] at both
        exact both
      · rename_i same
        rw [if_pos (not_not.mp same).symm] at most least
        dsimp only at most least
        obtain ⟨front, rfl⟩ := last (not_not.mp same)
        exact expands_repeat front (by omega) (by omega)
    · rename_i zero
      obtain rfl := not_not.mp zero
      rw [if_pos rfl] at most least
      dsimp only at most least
      exact expands_zeros lens (by omega) (by omega)

/-- The lengths of the symbols of a tree from one on. -/
def lensFrom (tree : Tree) (n more : Nat) : List Nat := (List.range' n more).map fun i => (tree i).dl

theorem lensFrom_succ (tree : Tree) (n more : Nat) :
    lensFrom tree n (more + 1) = (tree n).dl :: lensFrom tree (n + 1) more := by
  rw [lensFrom, List.range'_succ, List.map_cons, lensFrom]

/-- The guard is behind the lengths. -/
theorem lensFrom_guard (tree : Tree) (n v : Nat) : lensFrom (tree.setDl n v) 0 n = lensFrom tree 0 n := by
  refine List.map_congr_left fun i member => ?_
  have inside := (List.mem_range'_1.mp member).2
  rw [Tree.setDl, if_neg (by omega)]

theorem length_lensFrom (tree : Tree) (n more : Nat) : (lensFrom tree n more).length = more := by
  rw [lensFrom, List.length_map, List.length_range']

/-- The symbols that the loop comes to are those of the rest of the tree, and of the run before it. -/
theorem expands_loop (short : ∀ i < n + more, (tree i).dl < REP_3_6)
    (guard : ∀ i < n + more, (tree i).dl ≠ (tree (n + more)).dl) (own : nextlen = (tree n).dl)
    (counts : (max_count, min_count) = repeatCounts prevlen nextlen) (below : count < max_count)
    (open_ : count = 0 ∨ 0 < more)
    (last : ∀ c : Nat, (c : Int) = prevlen → ∃ front, lens = front ++ [c]) :
    Expands lens (loopItems tree more n prevlen nextlen count max_count min_count)
      (lens ++ List.replicate count nextlen ++ lensFrom tree n more) := by
  induction more generalizing n prevlen nextlen count max_count min_count lens with
  | zero =>
    have none : count = 0 := by omega
    rw [none, loopItems]
    simp [lensFrom, Expands]
  | succ more ih =>
    have rest_short : ∀ i < n + 1 + more, (tree i).dl < REP_3_6 := fun i inside => short i (by omega)
    have rest_guard : ∀ i < n + 1 + more, (tree i).dl ≠ (tree (n + 1 + more)).dl := fun i inside => by
      rw [(by omega : n + 1 + more = n + (more + 1))]
      exact guard i (by omega)
    have grown : lens ++ List.replicate count nextlen ++ lensFrom tree n (more + 1) =
        lens ++ List.replicate (count + 1) nextlen ++ lensFrom tree (n + 1) more := by
      rw [lensFrom_succ, ← own, List.replicate_succ', List.append_assoc, List.append_assoc,
        List.append_assoc, List.singleton_append]
    rw [loopItems, grown]
    split
    · rename_i both
      have open' : 0 < more := by
        by_contra none
        obtain rfl : more = 0 := by omega
        exact guard n (by omega) (own ▸ both.2)
      rw [both.2] at counts ⊢
      exact ih rest_short rest_guard rfl counts both.1 (.inr open') last
    · have fits : RunFits prevlen nextlen (count + 1) min_count := by
        refine ⟨Nat.succ_pos _, ?_, ?_⟩
        · rw [← counts]
          exact below
        · rw [← counts]
      have run := expands_run fits (own ▸ short n (by omega)) (last nextlen)
      refine run.append ?_
      have counts' : ((repeatCounts nextlen (tree (n + 1)).dl).1, (repeatCounts nextlen (tree (n + 1)).dl).2) =
          repeatCounts nextlen (tree (n + 1)).dl := rfl
      have last' : ∀ c : Nat, (c : Int) = nextlen →
          ∃ front, lens ++ List.replicate (count + 1) nextlen = front ++ [c] := fun c same =>
        ⟨lens ++ List.replicate count nextlen, by
          rw [Int.natCast_inj.mp same, List.append_assoc, List.replicate_succ']⟩
      have later := ih rest_short rest_guard rfl counts' (repeatCounts_positive _ _) (.inl rfl) last'
      rw [List.replicate_zero, List.append_nil] at later
      exact later

/-- The symbols of a tree come to its lengths, whatever lengths are in front of them. -/
theorem expands_tree {max_code : Int} (short : ∀ i < (max_code + 1).toNat, (tree i).dl < REP_3_6)
    (guard : (tree (max_code + 1).toNat).dl = 0xffff) (lens : List Nat) :
    Expands lens (treeItems tree max_code) (lens ++ lensFrom tree 0 (max_code + 1).toNat) := by
  have loop : Expands lens (treeItems tree max_code)
      (lens ++ List.replicate 0 (tree 0).dl ++ lensFrom tree 0 (max_code + 1).toNat) := by
    refine expands_loop (fun i inside => short i (by omega)) (fun i inside => ?_) rfl rfl
      (repeatCounts_positive _ _) (.inl rfl) (fun c same => by omega)
    have low := short i (by omega)
    rw [Nat.zero_add, guard]
    rw [REP_3_6] at low
    omega
  rw [List.replicate_zero, List.append_nil] at loop
  exact loop

end Beast.Zlib

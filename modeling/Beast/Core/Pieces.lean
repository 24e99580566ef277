import Beast.Core.CiCharTraits

/-! Octets that arrive in pieces. -/

namespace Beast

/-- Takes at most so many octets from the piece that comes next. -/
def takeSome (n : Nat) : List Octets → Octets × List Octets
  | [] => ([], [])
  | [] :: pieces => takeSome n pieces
  | (c :: piece) :: pieces => ((c :: piece).take n, (c :: piece).drop n :: pieces)

/-- Some octets come with a success, and as many as were asked for at most. -/
theorem takeSome_length (n : Nat) (pieces : List Octets) : (takeSome n pieces).1.length ≤ n := by
  induction pieces with
  | nil => simp [takeSome]
  | cons piece pieces ih =>
    cases piece with
    | nil => exact ih
    | cons c piece => simp only [takeSome, List.length_take]; omega

/-- What is taken from the pieces is their front. -/
theorem takeSome_append (n : Nat) (pieces : List Octets) :
    (takeSome n pieces).1 ++ (takeSome n pieces).2.flatten = pieces.flatten := by
  induction pieces with
  | nil => rfl
  | cons piece pieces ih =>
    cases piece with
    | nil => simpa [takeSome] using ih
    | cons c piece =>
      simp only [takeSome, List.flatten_cons, ← List.append_assoc, List.take_append_drop]

/-- Nothing is taken only where nothing is left. -/
theorem takeSome_nil {n : Nat} (asked : n ≠ 0) {pieces : List Octets}
    (none_ : (takeSome n pieces).1 = []) : pieces.flatten = [] := by
  induction pieces with
  | nil => rfl
  | cons piece pieces ih =>
    cases piece with
    | nil => simpa using ih none_
    | cons c piece => simp [takeSome, asked] at none_

end Beast

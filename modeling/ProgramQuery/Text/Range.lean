/-! Ranges of character codes. -/

namespace ProgramQuery.Text

/-- Whether a code lies in one of some ranges. The ranges hold their ends and stand in ascending
order. -/
def inRanges : List (Nat × Nat) → Nat → Bool
  | [], _ => false
  | (low, high) :: rest, n => low ≤ n && (n ≤ high || inRanges rest n)

/-- Whether a code lies in a set that is given by runs: so many codes outside it, so many in it, and so
on by turns. -/
def inRuns : List Nat → Nat → Bool
  | without :: within :: rest, n =>
    without ≤ n && (n - without < within || inRuns rest (n - without - within))
  | _, _ => false

end ProgramQuery.Text

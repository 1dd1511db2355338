/-! Places in a list, counted from either end. -/

namespace ProgramQuery

/-- The place that an index means in a list of a given length. A negative index counts from the end,
so that minus one is the last place. -/
def position? (length : Nat) (index : Int) : Option Nat :=
  if 0 ≤ index then
    if index < length then some index.toNat else none
  else if 0 ≤ index + length then some (index + length).toNat
  else none

end ProgramQuery

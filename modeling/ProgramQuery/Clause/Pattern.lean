import ProgramQuery.Relation.Modes
import ProgramQuery.Tree.Expression
import ProgramQuery.Tree.Search

/-! Pattern clauses, which select statements by their parts. -/

namespace ProgramQuery.Clause

open ProgramQuery.Relation

variable (program : Tree) (kb : KnowledgeBase)

/-- The statements of a pattern's kind whose first part is the variable named, if one is. -/
def candidates (clause : Tree) : Asked (List Int) := do
  let target ← clause.part 1
  let kind ← target.label
  let type ← (← clause.part 0).label
  if kind = "VARIABLE" ∨ kind = "EVERYTHING" then return kb.linesOfKind type
  else return kb.linesOfKindAndValue type (← target.text)

def assignedFits (deep : Bool) (pattern : Tree) (line : Int) : Asked Bool := do
  match ← program.find? (Tree.hasLine line) with
  | none => .error .nothingThere
  | some statement =>
    match ← statement.part 1 with
    | .missing => return false
    | value => value.fits deep pattern

/-- The assignments of a list whose value fits the last part of the pattern. A last part without
parts of its own fits everything. -/
def fittingAssignments (pattern : Tree) (found : List Int) : Asked (List Int) := do
  let kind ← pattern.label
  match pattern.children with
  | [] => return found
  | first :: _ =>
    if kind = "EVERYTHING" then found.filterM (assignedFits program true first)
    else found.filterM (assignedFits program false pattern)

/-- The statements that a pattern clause selects. There is no answer for a pattern of assignments
when no assignment has the variable named. -/
def patternLines (clause : Tree) : Asked (Option EntitySet) := do
  let kind ← clause.label
  let found ← candidates kb clause
  if kind = "PATTERN_WHILE" ∨ kind = "PATTERN_IF" then return some (.ofList (lines found))
  else if found.isEmpty then return none
  else return some (.ofList (lines (← fittingAssignments program (← clause.part 2) found)))

end ProgramQuery.Clause

import ProgramQuery.Relation.Modes

/-! Tables between statement numbers, whose rows and columns are numerals. -/

namespace ProgramQuery.Relation

open Text

section Growing

variable {α : Type} [BEq α] (step : α → List α)

/-- Adds a thing to a list that does not hold it yet. -/
def noted (seen : List α) (x : α) : List α :=
  if seen.contains x then seen else seen ++ [x]

/-- The rest of a list behind `x`, once `x` was looked at. What it leads to comes to the end, unless all
of that is in the list already. -/
def grown (seen rest : List α) (x : α) : List α :=
  if (step x).all fun y => seen.contains y || rest.contains y then rest else rest ++ step x

/-- Goes through a list that grows on the way, and gives what was in it if the fuel lasts to its end. -/
def closure? : Nat → List α → List α → Option (List α)
  | _, [], seen => some seen
  | 0, _ :: _, _ => none
  | fuel + 1, x :: rest, seen =>
    closure? fuel (grown step (noted seen x) rest x) (noted seen x)

/-- Whether something sought comes into such a list. All of it is searched at each turn. -/
def meets? (sought : α → Bool) : Nat → List α → List α → Option Bool
  | _, [], _ => some false
  | 0, _ :: _, _ => none
  | fuel + 1, x :: rest, seen =>
    if seen.any sought || (x :: rest).any sought then some true
    else meets? sought fuel (grown step (noted seen x) rest x) (noted seen x)

end Growing

/-- Everything reached by following `step` one or more times, for as long as the fuel lasts. -/
def ascent (step : Int → Option Int) : Nat → Int → List Int
  | 0, _ => []
  | fuel + 1, line =>
    match step line with
    | some next => next :: ascent step fuel next
    | none => []

end ProgramQuery.Relation

namespace ProgramQuery.Grid

open Text ProgramQuery.Relation

variable {α : Type}

def cells (g : Grid α) : Nat :=
  g.allColumns.length

def rowNumbers (g : Grid α) : Asked (List Int) :=
  g.rowNames.mapM number

/-- The rows whose names are digits only, as numbers. -/
def digitRows (g : Grid α) : Asked (List Int) :=
  (g.rowNames.filter isDigits).mapM number

def columnNumbers (g : Grid α) : Asked (List Int) :=
  g.allColumns.eraseDups.mapM number

/-- The columns of a row as numbers, or none where one of them is no numeral. -/
def columnNumbersOf (g : Grid α) (row : String) : List Int :=
  ((g.columnsOf row).mapM readInt?).getD []

/-- The rows that hold a column as numbers, or none where one of them is no numeral. -/
def rowNumbersWith (g : Grid α) (column : String) : List Int :=
  ((g.rowsWith column).mapM readInt?).getD []

def firstColumnOf? (g : Grid α) (row : String) : Option Int :=
  (g.columnsOf row).head?.bind readInt?

def firstRowWith? (g : Grid α) (column : String) : Option Int :=
  (g.rowsWith column).head?.bind readInt?

def columnsAt (g : Grid α) (line : Int) : List Int :=
  g.columnNumbersOf (showInt line)

def rowsAt (g : Grid α) (line : Int) : List Int :=
  g.rowNumbersWith (showInt line)

def firstColumn? (g : Grid α) (line : Int) : Option Int :=
  g.firstColumnOf? (showInt line)

def firstRow? (g : Grid α) (line : Int) : Option Int :=
  g.firstRowWith? (showInt line)

def markedAt (g : Grid Int) (row column : Int) : Bool :=
  g.marked (showInt row) (showInt column)

/-- Turns enough to go through a list that grows along a table. Each cell is followed at most once after
the first step. -/
def turns (g : Grid α) : Nat :=
  2 * g.cells + 1

def columnClosure? (g : Grid α) (line : Int) : Option (List Int) :=
  closure? g.columnsAt g.turns (g.columnsAt line) []

def rowClosure? (g : Grid α) (line : Int) : Option (List Int) :=
  closure? g.rowsAt g.turns (g.rowsAt line) []

def columnClosure (g : Grid α) (line : Int) : List Int :=
  (g.columnClosure? line).getD []

def rowClosure (g : Grid α) (line : Int) : List Int :=
  (g.rowClosure? line).getD []

/-- Whether there is any row and any column. -/
def inhabited (g : Grid α) : Asked Bool := do
  if (← g.rowNumbers).isEmpty then return false
  return !(← g.columnNumbers).isEmpty

end ProgramQuery.Grid

namespace ProgramQuery.Relation

/-- A line that was found; the number zero does not count. -/
def found (line : Option Int) : Bool :=
  line.any (· != 0)

/-- The lines of a list that fit the type of an open argument. -/
def fitting (kb : KnowledgeBase) (type : String) (ns : List Int) : List Int :=
  if type = anyStatement then ns else common ns (kb.linesOfKind type)

end ProgramQuery.Relation

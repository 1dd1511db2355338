import ProgramQuery.Keyed
import ProgramQuery.Text.Numeral
import ProgramQuery.Text.Quoted

/-! Tables of rows and columns with text keys. Rows, and the columns of a row, keep the order in
which they were first written. -/

namespace ProgramQuery

open Text

structure Grid (α : Type) where
  rows : Keyed (Keyed α)
  deriving Repr

namespace Grid

variable {α : Type}

def empty : Grid α := ⟨[]⟩

/-- The table with given rows. A row or a column that is given again takes the place of the first. -/
def ofRows (rows : List (String × List (String × α))) : Grid α :=
  ⟨Keyed.ofEntries (rows.map fun (row, columns) => (row, Keyed.ofEntries columns))⟩

def row? (g : Grid α) (row : String) : Option (Keyed α) :=
  g.rows.get? row

def columnsOf (g : Grid α) (row : String) : List String :=
  Keyed.keys ((g.row? row).getD [])

def cell? (g : Grid α) (row column : String) : Option α :=
  (g.row? row).bind (·.get? column)

def rowNames (g : Grid α) : List String :=
  g.rows.keys

/-- The columns of all rows in order, repeated as often as they occur. -/
def allColumns (g : Grid α) : List String :=
  g.rows.values.flatMap Keyed.keys

def rowsWith (g : Grid α) (column : String) : List String :=
  Keyed.keys (g.rows.filter fun entry => Keyed.has entry.2 column)

def size (g : Grid α) : Nat :=
  g.rows.length

def addRow (g : Grid α) (row : String) : Grid α :=
  if g.rows.has row then g else ⟨g.rows.put row []⟩

def put (g : Grid α) (row column : String) (value : α) : Grid α :=
  ⟨g.rows.put row (Keyed.put ((g.row? row).getD []) column value)⟩

def putAll (g : Grid α) (row : String) (columns : List String) (value : α) : Grid α :=
  columns.foldl (fun g column => g.put row column value) g

/-- Whether a cell is there and counts as true. -/
def holds (truth : α → Bool) (g : Grid α) (row column : String) : Bool :=
  (g.cell? row column).any truth

/-- Whether a cell is there and holds something other than zero. -/
def marked (g : Grid Int) (row column : String) : Bool :=
  g.holds (· != 0) row column

def ofPairs (pairs : List (String × String)) : Grid Int :=
  pairs.foldl (fun g (row, column) => g.put row column 1) empty

def ofLines (pairs : List (Nat × Nat)) : Grid Int :=
  ofPairs (pairs.map fun (row, column) => (showInt row, showInt column))

/-- The whole table on one line in braces, given how a cell is shown. -/
def display (cell : α → String) (g : Grid α) : String :=
  let entry (key value : String) := quoted key ++ ": " ++ value
  let braces (parts : List String) := "\x7b" ++ ", ".intercalate parts ++ "\x7d"
  braces (g.rows.map fun (row, columns) =>
    entry row (braces (columns.map fun (column, value) => entry column (cell value))))

end Grid

end ProgramQuery

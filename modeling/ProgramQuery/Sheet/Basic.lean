import ProgramQuery.Entity
import ProgramQuery.Grid
import ProgramQuery.Table.Datum

/-! The sheet on which a query is worked out. It has a row for each synonym, with the type of the
synonym, a column for each condition that was looked at, and the values left in the end. Two more
rows hold the truth of the conditions and their fixed arguments. -/

namespace ProgramQuery

open Text

/-- What a cell holds: the values that a condition leaves to a synonym, or something else that is
kept beside them. -/
inductive Cell where
  | set (s : EntitySet)
  | datum (d : Datum)
  deriving Repr

namespace Cell

@[match_pattern]
def text (s : String) : Cell := .datum (.text s)

@[match_pattern]
def flag (b : Bool) : Cell := .datum (.flag b)

/-- A fixed argument as it is kept. -/
def ofEntity : Entity → Cell
  | .missing => .datum .missing
  | .line n => .datum (.number n)
  | .name s => .text s

def truth : Cell → Bool
  | .set s => !s.isEmpty
  | .datum d => d.truth

def set? : Cell → Option EntitySet
  | .set s => some s
  | .datum _ => none

/-- The type that a cell names; what is no text names none. -/
def typeText : Cell → String
  | .text s => s
  | _ => ""

/-- Sets are the same if they have the same members. -/
def same : Cell → Cell → Bool
  | .set s, .set t => s.same t
  | .datum d, .datum e => d == e
  | _, _ => false

end Cell

structure Sheet where
  cells : Grid Cell
  /-- The type and the name of the synonym that is asked for. -/
  selected : String × String
  deriving Repr

namespace Sheet

def truthRow : String := "BOOLEAN"

def fixedRow : String := "CONST"

def typeColumn : String := "type"

def finalColumn : String := "final"

def start : Sheet :=
  ⟨(Grid.empty.addRow truthRow).addRow fixedRow, ("", "")⟩

/-- Adds a row for a synonym unless it has one. -/
def declare (s : Sheet) (synonym : String) (type : Datum) : Sheet :=
  if (s.cells.row? synonym).isSome then s
  else { s with cells := s.cells.put synonym typeColumn (.datum type) }

def final? (s : Sheet) (synonym : String) : Option Cell :=
  s.cells.cell? synonym finalColumn

def columns (s : Sheet) (synonym : String) : List String :=
  s.cells.columnsOf synonym

def allColumns (s : Sheet) : List String :=
  s.cells.allColumns.eraseDups

def cell (s : Sheet) (synonym column : String) : Asked Cell :=
  match s.cells.row? synonym with
  | none => .error (.unknownName synonym)
  | some row =>
    match Keyed.get? row column with
    | none => .error (.unknownName column)
    | some c => .ok c

/-- The values of a set that all sets of a row hold. -/
def agreed (s : EntitySet) (row : Keyed Cell) : EntitySet :=
  (row.values.filterMap Cell.set?).foldl EntitySet.inter s

/-- Records the outcome of a condition for a synonym. The values left are those that all conditions
allow. The condition is recorded even where it leaves nothing, and then there is no answer. -/
def narrow (condition synonym : String) (outcome : Cell) : EStateM Fault Sheet Unit := do
  let s ← get
  match s.cells.row? synonym with
  | none => throw (.unknownName synonym)
  | some row =>
    let cells := s.cells.put synonym condition outcome
    set { s with cells }
    if synonym != fixedRow then
      match outcome with
      | .set values =>
        modify fun s => { s with
          cells := s.cells.put synonym finalColumn
            (.set (agreed values (Keyed.put row condition outcome))) }
      | .datum _ => throw .notASet
    let truth := Cell.flag outcome.truth
    modify fun s => { s with
      cells := (s.cells.put truthRow condition truth).put truthRow finalColumn truth }
    unless outcome.truth do throw .nothingLeft

end Sheet

end ProgramQuery

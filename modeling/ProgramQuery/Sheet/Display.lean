import ProgramQuery.Sheet.Basic

/-! The text of a sheet. -/

namespace ProgramQuery

open Text

def Entity.display : Entity → String
  | .missing => "None"
  | .line n => showInt n
  | .name s => quoted s

/-- Sets stand in braces, and the empty one has a name. -/
def Cell.display : Cell → String
  | .set s =>
    if s.isEmpty then "set()"
    else "\x7b" ++ ", ".intercalate (s.members.map Entity.display) ++ "\x7d"
  | .datum d => d.display

/-- A text as it is, and anything else on one line. -/
def Cell.plain : Cell → String
  | .datum d => d.plain
  | cell => cell.display

def Sheet.display (s : Sheet) : String :=
  s.cells.display Cell.display

def Sheet.printed (s : Sheet) : String :=
  "ResultsTable:\n" ++ s.display ++ "\n"

def Sheet.logged (s : Sheet) : String :=
  "ResultsTable: \n" ++ s.display

end ProgramQuery

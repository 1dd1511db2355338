import ProgramQuery.Relation.Modes
import ProgramQuery.Sheet.Display
import ProgramQuery.Text.Case

/-! Reading the answer to a query off its sheet. -/

namespace ProgramQuery.Sheet

open Text

def listed (parts : List String) : String :=
  ", ".intercalate parts

/-- Everything of a type, which is the answer for a synonym that no condition mentions. -/
def everything (kb : KnowledgeBase) (type : String) : Asked String :=
  let lines (ns : List Int) := listed (ns.map fun n => showInt n)
  if type = "STMT" ∨ type = "PROG_LINE" then return lines kb.statementLines
  else if type = "PROCEDURE" then return listed kb.procedureNames
  else if type = "VARIABLE" then return listed kb.variableNames
  else if type = "CONSTANT" then return lines (← kb.constantValues)
  else return lines (kb.linesOfKind type)

/-- The entries of a cell, one after the other. A text is taken letter by letter and a record name by
name; other things have no entries. -/
def entriesText? : Cell → Option String
  | .set s => some (listed (s.members.map Entity.text))
  | .datum (.text s) => some (listed (s.toList.map Char.toString))
  | .datum (.list items) => some (listed (items.map Datum.plain))
  | .datum (.record fields) => some (listed (Keyed.keys fields))
  | .datum _ => none

/-- The answer for the selected synonym, or the truth of the query in small letters if that is
selected. -/
def answer (s : Sheet) (kb : KnowledgeBase) : Asked String :=
  let (type, name) := s.selected
  let recorded := (s.final? name).bind fun cell =>
    if name = truthRow then some (lower cell.plain) else entriesText? cell
  match recorded with
  | some text => .ok text
  | none => everything kb type

end ProgramQuery.Sheet

import ProgramQuery.Relation.Modes
import ProgramQuery.Tree.Expression

/-! With clauses, which compare an attribute of a synonym with a value or with an attribute of
another synonym. -/

namespace ProgramQuery.Clause

open ProgramQuery.Relation

variable (kb : KnowledgeBase)

/-- The names an attribute can have, by the type of its synonym. -/
def attributeNames (type : String) : List String :=
  if type = "CALL" ∨ type = "PROCEDURE" then kb.procedureNames else kb.variableNames

/-- What a synonym of a type can be when its attribute equals a number. No constant does, since
constants are recorded as texts. -/
def equalsNumber (type value : String) : Asked (List Entity) := do
  let n ← number value
  if type = "CONSTANT" then return []
  else if type = "STMT" ∨ type = "PROG_LINE" then
    return if n > kb.statements.length then [] else [.name value]
  else return if (kb.linesOfKind type).contains n then [.name value] else []

def equalsName (type value : String) : List Entity :=
  if type = "PROCEDURE" then
    if kb.procedureNames.contains value then [.name value] else []
  else if type = "VARIABLE" then
    if kb.variableNames.contains value then [.name value] else []
  else lines (kb.linesOfKindAndValue type value)

/-- The constants that are statement numbers of the kind that the synonym is called after. -/
def equalsConstant (type synonym : String) : Asked (List Entity) := do
  let constants ← kb.constantValues
  if type = "STMT" then return lines (constants.filter kb.hasLine)
  else return lines (constants.filter (kb.linesOfKind synonym).contains)

def withValues (clause : Tree) : Asked EntitySet := do
  let right ← clause.part 1
  let kind ← right.label
  let left ← clause.part 0
  let type ← left.label
  if kind = "INTEGER" then return .ofList (← equalsNumber kb type (← right.text))
  else if kind = "IDENT_QUOTE" then return .ofList (equalsName kb type (← right.text))
  else if kind = "CONSTANT" then return .ofList (← equalsConstant kb type (← left.text))
  else return .ofList (names (common (attributeNames kb type) (attributeNames kb kind)))

end ProgramQuery.Clause

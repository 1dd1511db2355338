import ProgramQuery.Relation.LineTable

/-! Modifies and Uses, between a place in the program and a variable. A place is a statement or a
procedure. -/

namespace ProgramQuery.Relation

open Text

variable (kb : KnowledgeBase) (effects : Grid Int)

def effectLines : Asked (List Int) :=
  effects.digitRows

def effectVariables : List String :=
  effects.allColumns.eraseDups

/-- Whether a place touches a variable. Both are looked up by their texts. -/
def touches (place touched : Entity) : Bool :=
  effects.marked place.text touched.text

def touchedBy (place : Entity) : List String :=
  effects.columnsOf place.text

def placesOf (type : String) (touched : Entity) : List Entity :=
  if type = "PROCEDURE" then (names kb.procedureNames).filter (touches effects · touched)
  else
    let candidates := if type = anyStatement then kb.statementLines else kb.linesOfKind type
    (lines candidates).filter (touches effects · touched)

/-- The places of a type with a row of their own. Statements are given as texts. -/
def recordedPlaces (type : String) : List Entity :=
  if type = "PROCEDURE" then names (common kb.procedureNames effects.rowNames)
  else
    let candidates := if type = anyStatement then kb.statementLines else kb.linesOfKind type
    names (common (candidates.map fun n => showInt n) effects.rowNames)

def effectSides (type : String) : Asked (List Entity × List Entity) := do
  if type = "PROCEDURE" then
    return (names (common kb.procedureNames effects.rowNames), names (effectVariables effects))
  else if type = anyStatement then
    return (lines (common kb.statementLines (← effectLines effects)),
      names (effectVariables effects))
  else
    let places := common (kb.linesOfKind type) (← effectLines effects)
    return (lines places, names ((lines places).flatMap (touchedBy effects)).eraseDups)

/-- The modes of a table of places and variables. -/
def effectModes : Modes where
  memberMember first second := return touches effects first second
  memberOpen first _ := return names (touchedBy effects first)
  memberFixed first second :=
    return if second = anything then !(touchedBy effects first).isEmpty
    else touches effects first second
  openMember type second := return placesOf kb effects type second
  openOpen type _ := effectSides kb effects type
  openFixed type second :=
    return if second = anything then recordedPlaces kb effects type
    else placesOf kb effects type second
  fixedMember first second :=
    return if first = anything then !(effectVariables effects).isEmpty
    else touches effects first second
  fixedOpen first _ :=
    return names (if first = anything then effectVariables effects else touchedBy effects first)
  fixedFixed first second :=
    return if first = anything then
      if second = anything then !(effectVariables effects).isEmpty && !effects.rowNames.isEmpty
      else !(effects.rowsWith second.text).isEmpty
    else if second = anything then !(touchedBy effects first).isEmpty
    else touches effects first second

end ProgramQuery.Relation

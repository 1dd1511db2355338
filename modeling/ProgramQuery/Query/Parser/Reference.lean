import ProgramQuery.Query.Parser.Basic

/-! References to design entities: the arguments of relations and patterns. -/

namespace ProgramQuery.Query.Parser

open Text

def lineTypes : List String :=
  ["STMT", "CONSTANT", "WHILE", "IF", "PROG_LINE", "ASSIGN", "CALL"]

/-- Takes an integer, which must not lie beyond the program. It is read off the text of its token. -/
def lineNumber (text : Option Token → String) : Parser Unit := do
  let line ← numeral (text (← get).next)
  if !(← inProgram line) then noAnswer
  expect .integer

/-- What is said of a name that stands for nothing. -/
def notExisting (place name : String) : String :=
  place ++ " " ++ name ++ " not exist"

/-- A synonym for statements, `_` or a statement number. In front of any other token nothing is
taken, and the reference repeats the token before. -/
def stmtRef : Parser Tree := do
  match ← peek with
  | some .name =>
    let (type, name) ← typed (notExisting "stmt_ref")
    if lineTypes.contains type then return .leaf type name else throw .notALine
  | some .everything => expect .everything
  | some .integer => lineNumber plainText
  | _ => pure ()
  takenLeaf plainText

/-- Any synonym, `_`, a quoted name or a statement number. -/
def entRef : Parser Tree := do
  match ← peek with
  | some .name =>
    let (type, name) ← typed (notExisting "ent_ref")
    return .leaf type name
  | some .everything => expect .everything
  | some .quotedName => expect .quotedName
  | some .integer => lineNumber plainText
  | _ => pure ()
  takenLeaf unquoted

/-- A synonym for procedures, `_` or the quoted name of a procedure of the program. -/
def procRef : Parser Tree := do
  match ← peek with
  | some .name =>
    let (type, name) ← typed (notExisting "ent_ref")
    if type = "PROCEDURE" then return .leaf type name else throw .notAProcedure
  | some .everything => expect .everything
  | some .quotedName =>
    if !(← read).procedures.contains (unquoted (← get).next) then noAnswer
    expect .quotedName
  | _ => pure ()
  takenLeaf unquoted

/-- A synonym for variables, `_` or a quoted name. The quoted name of no variable is taken and
leaves nothing. -/
def varRef : Parser Tree := do
  match ← peek with
  | some .name =>
    let (type, name) ← typed (notExisting "ent_ref")
    if type = "VARIABLE" then return .leaf type name else throw .notAVariable
  | some .everything => expect .everything
  | some .quotedName =>
    let known := (← read).variableNames.contains (unquoted (← get).next)
    expect .quotedName
    if !known then return .missing
  | _ => noAnswer
  takenLeaf unquoted

end ProgramQuery.Query.Parser

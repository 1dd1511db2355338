import ProgramQuery.Query.Parser.Expression
import ProgramQuery.Query.Parser.Reference

/-! The conditions of a query: relations, patterns and attributes. -/

namespace ProgramQuery.Query.Parser

open Text

/-- One or more conditions joined by `and`. -/
def joined (condition : Parser Tree) : Nat → Parser (List Tree)
  | 0 => throw .exhausted
  | fuel + 1 => do
      let first ← condition
      if (← peek) = some .andWord then
        shift
        let rest ← joined condition fuel
        return first :: rest
      else
        return [first]

/-- Two arguments of one kind. Unless a relation may hold of a thing and itself, naming the same
thing twice leaves the query without an answer. -/
def alikeArguments (reference : Parser Tree) (reflexive : Bool) : Parser (List Tree) := do
  let first ← reference
  expect .comma
  let second ← reference
  if !reflexive && first.text? == second.text? && second.text? != some "_" then noAnswer
  return [first, second]

/-- The arguments of Modifies and Uses: a procedure or a statement, and a variable. -/
def effectArguments : Parser (List Tree) := do
  let first ← match ← peek with
    | some .name =>
      if (← declaredType (plainText (← get).next)) = some "PROCEDURE" then procRef else stmtRef
    | some .integer => stmtRef
    | _ => procRef
  expect .comma
  let second ← varRef
  return [first, second]

def alikeRelation (title : String) : Parser Tree := do
  expectTitle title
  expect .openParenthesis
  let arguments ←
    if ["PARENT", "PARENTT", "FOLLOWS", "FOLLOWST"].contains title then
      alikeArguments stmtRef false
    else if ["CALLS", "CALLST"].contains title then alikeArguments procRef false
    else if ["NEXT", "NEXTT"].contains title then alikeArguments stmtRef true
    else pure []
  expect .closeParenthesis
  return .node title "" 0 arguments

/-- A relation between a place in the program and a variable. Other relations are passed without
arguments and then given up. -/
def effectRelation (title : String) : Parser Tree := do
  expectTitle title
  expect .openParenthesis
  let known := ["MODIFIES", "MODIFIEST", "USES", "USEST"].contains title
  let arguments ← if known then effectArguments else pure []
  expect .closeParenthesis
  if !known then throw .noEffect
  if arguments.any (·.label?.isNone) then noAnswer
  return .node title "" 0 arguments

/-- A relation with its arguments. Any other token is left where it is and gives nothing. -/
def relRef : Parser Tree := do
  match ← peek with
  | some (.relation name) =>
    match name with
    | .modifies | .modifiesStar | .uses | .usesStar => effectRelation name.title
    | _ => alikeRelation name.title
  | some .affects => throw .affectsAsked
  | some .affectsStar => throw .affectsAsked
  | _ => return .missing

/-- Takes `_`, or fails. -/
def everything (failure : Failure) : Parser Tree := do
  if (← peek) = some .everything then
    shift
    takenLeaf plainText
  else
    throw failure

/-- The right-hand side of an assignment: an expression in quotes, the same between two `_` if it
may be part of a larger one, or `_` alone. -/
def rightHandSide : Parser Tree := do
  let inQuotes : Parser Tree := do
    expect .quote
    let e ← expression
    expect .quote
    return e
  match ← peek with
  | some .everything =>
    shift
    let whole ← takenLeaf plainText
    match ← peek with
    | some .quotedName =>
      let e ← expression
      expect .everything
      return whole.withChildren [e]
    | some .quote =>
      let e ← inQuotes
      expect .everything
      return whole.withChildren [e]
    | _ => return whole
  | some .quotedName => expression
  | _ => inQuotes

/-- A pattern node headed by the synonym taken last; a variable that is missing from the program
leaves no answer. -/
def patternNode (title type synonym : String) (arguments : List Tree) : Parser Tree := do
  if arguments.head?.any (·.label?.isNone) then noAnswer
  return .node title "" 0 (.leaf type synonym :: arguments)

def assignPattern : Parser Tree := do
  let name := plainText (← get).prev
  expect .openParenthesis
  let target ← varRef
  expect .comma
  let value ← rightHandSide
  expect .closeParenthesis
  patternNode "PATTERN_ASSIGN" "ASSIGN" name [target, value]

def branchPattern : Parser Tree := do
  let name := plainText (← get).prev
  expect .openParenthesis
  let condition ← varRef
  expect .comma
  let second ← everything .secondNotEverything
  expect .comma
  let third ← everything .thirdNotEverything
  expect .closeParenthesis
  patternNode "PATTERN_IF" "IF" name [condition, second, third]

def loopPattern : Parser Tree := do
  let name := plainText (← get).prev
  expect .openParenthesis
  let condition ← varRef
  expect .comma
  let second ← everything .secondNotEverything
  expect .closeParenthesis
  patternNode "PATTERN_WHILE" "WHILE" name [condition, second]

def patternCond : Parser Tree := do
  if (← peek) = some .name then
    let (type, name) ← typed fun name => "pattern_cond error - variable " ++ name ++ " not declared"
    if type = "ASSIGN" then assignPattern
    else if type = "IF" then branchPattern
    else if type = "WHILE" then loopPattern
    else throw (.noPattern name)
  else
    throw .patternWithoutSynonym

/-- Whether the lookahead is an attribute that things of a type have. Program lines have none and
are compared themselves. -/
def hasAttribute (type : String) : Parser Bool := do
  let attr := trim (without '.' (rawText (← get).next))
  return (["STMT", "WHILE", "IF", "ASSIGN", "CALL"].contains type && attr == "stmt#")
    || (type == "CONSTANT" && attr == "value")
    || (type == "PROCEDURE" && attr == "procName")
    || (type == "VARIABLE" && attr == "varName")
    || (type == "CALL" && attr == "procName")
    || (type == "PROG_LINE" && attr == "=")

def attributeName : Parser Tree := do
  expect .attr
  takenLeaf fun token => without '.' (rawText token)

def attributeValueName : Parser Tree := do
  expect .attr
  takenLeaf fun token => trim (without '.' (rawText token))

/-- A synonym and an attribute that it has. -/
def attributeValue : Parser Tree := do
  let (type, name) ← typed fun _ => "attribute_value "
  if !(← hasAttribute type) then throw .wrongAttributeValue
  let attr ← attributeValueName
  return .node type name 0 [attr]

/-- What an attribute is compared with: a quoted text, an integer or another attribute. Any other
token is named and left where it is. -/
def comparand : Parser Tree := do
  let bare (token : Option Token) := trim (without '"' (without '.' (rawText token)))
  expect .equals
  if (← peek) = some .quote then
    shift
    let inner := (← get).next
    shift
    expect .quote
    return .leaf "IDENT_QUOTE" (bare inner)
  else
    let token := (← get).next
    match ← peek with
    | some .name => return ← attributeValue
    | some .quotedName => shift
    | some .integer => lineNumber rawText
    | _ => pure ()
    return .leaf (titleOf token) (bare token)

/-- A comparison that no program thing can meet leaves the query without an answer. -/
def checkComparand (type : String) (compared : Tree) : Parser Unit := do
  match compared.heading? with
  | some ("IDENT_QUOTE", text) =>
    if ["PROCEDURE", "CALL"].contains type then
      if !(← read).procedures.contains (trim text) then noAnswer
    else if type = "VARIABLE" then
      if !(← read).variableNames.contains text then noAnswer
  | some ("INTEGER", text) => if !(← inProgram (← numeral text)) then noAnswer
  | _ => pure ()

def attrCond : Parser Tree := do
  let (type, name) ← typed (notExisting "attribute")
  if !(← hasAttribute type) then throw .wrongAttribute
  let attributes ← if type = "PROG_LINE" then pure [] else (do return [← attributeName])
  let compared ← comparand
  checkComparand type compared
  return .node "ATTR" "" 0 [.node type name 0 attributes, compared]

def suchThatClause : Parser (List Tree) := do
  joined relRef (← get).budget

def patternClause : Parser (List Tree) := do
  joined patternCond (← get).budget

def withClause : Parser (List Tree) := do
  joined attrCond (← get).budget

end ProgramQuery.Query.Parser

import ProgramQuery.Program.Flow
import ProgramQuery.Program.Parser.Expression

/-! Statements, procedures and whole programs. -/

namespace ProgramQuery.Program.Parser

def assignment : Parser Stmt := do
  let target ← expect .name
  discard (expect .assign)
  let value ← expression
  discard (expect .semicolon)
  return .assign target value

def call : Parser Stmt := do
  discard (expect .callWord)
  let callee ← expect .name
  discard (expect .semicolon)
  return .call callee

/-- A loop goes back to its head from where its body ends, so the body must have an end. -/
def loopWith (statements : Parser (List Stmt)) : Parser Stmt := do
  discard (expect .whileWord)
  let condition ← expect .name
  discard (expect .openBracket)
  let body ← statements
  if !Stmt.listEnds body then throw .emptyList
  discard (expect .closeBracket)
  return .loop condition body

def branchWith (statements : Parser (List Stmt)) : Parser Stmt := do
  discard (expect .ifWord)
  let condition ← expect .name
  discard (expect .thenWord)
  discard (expect .openBracket)
  let thenBody ← statements
  discard (expect .closeBracket)
  discard (expect .elseWord)
  discard (expect .openBracket)
  let elseBody ← statements
  discard (expect .closeBracket)
  return .branch condition thenBody elseBody

/-- The first token decides which statement it is; every statement counts one line further. -/
def statementWith (statements : Parser (List Stmt)) : Parser Stmt := do
  modify fun s => { s with line := s.line + 1 }
  match ← peek with
  | some .whileWord => loopWith statements
  | some .callWord => call
  | some .ifWord => branchWith statements
  | _ => assignment

/-- Statements up to a closing bracket. The one before must have an end to go on from. -/
def statementsFrom (statement : Parser Stmt) : Nat → Option Stmt → Parser (List Stmt)
  | 0, _ => throw .exhausted
  | fuel + 1, before => do
      if (← peek) = some .closeBracket then
        return []
      else
        let s ← statement
        if before.any (!·.ends) then throw .emptyList
        let rest ← statementsFrom statement fuel (some s)
        return s :: rest

/-- Statement lists that are nested less deep than the fuel. -/
def statementsWithin : Nat → Parser (List Stmt)
  | 0 => throw .exhausted
  | fuel + 1 => statementsFrom (statementWith (statementsWithin fuel)) fuel none

def statements : Parser (List Stmt) := fun s =>
  statementsWithin s.budget s

def statement : Parser Stmt := fun s =>
  statementWith (statementsWithin s.budget) s

def loop : Parser Stmt := fun s =>
  loopWith (statementsWithin s.budget) s

def branch : Parser Stmt := fun s =>
  branchWith (statementsWithin s.budget) s

def procedure : Parser Procedure := do
  discard (expect .procedureWord)
  let name ← expect .name
  discard (expect .openBracket)
  let body ← statements
  discard (expect .closeBracket)
  return ⟨name, body⟩

def procedures : Nat → Parser (List Procedure)
  | 0 => throw .exhausted
  | fuel + 1 => do
      if (← peek) = some .procedureWord then
        let first ← procedure
        let rest ← procedures fuel
        return first :: rest
      else
        return []

/-- A program is read up to the first token that does not start a procedure; what stands there is
not looked at. -/
def program : Parser Program := do
  modify ParserState.advance
  let s ← get
  return ⟨← procedures s.budget⟩

end ProgramQuery.Program.Parser

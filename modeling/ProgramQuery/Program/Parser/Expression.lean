import ProgramQuery.Program.Parser.Basic
import ProgramQuery.Program.Syntax

/-! Expressions: sums of products of factors, each grouped to the left. -/

namespace ProgramQuery.Program.Parser

/-- `(operator operand)*` after a first operand. -/
def chain (operator? : TokenKind → Option Operator) (operand : Parser Expr)
    : Nat → Expr → Parser Expr
  | 0, _ => throw .exhausted
  | fuel + 1, left => do
      match (← peek).bind operator? with
      | some op =>
        shift
        let right ← operand
        chain operator? operand fuel (.binary op left right)
      | none => return left

def sumOperator? : TokenKind → Option Operator
  | .plus => some .plus
  | .minus => some .minus
  | _ => none

def productOperator? : TokenKind → Option Operator
  | .multiply => some .times
  | _ => none

/-- A name, an integer, or an expression in parentheses. -/
def factorWith (inner : Parser Expr) : Parser Expr := do
  match ← peek with
  | some .openParenthesis =>
    shift
    let e ← inner
    discard (expect .closeParenthesis)
    return e
  | some .integer => return .literal (← expect .integer)
  | some .name => return .name (← expect .name)
  | _ => throw .rejected

def termWith (fuel : Nat) (inner : Parser Expr) : Parser Expr := do
  let first ← factorWith inner
  chain productOperator? (factorWith inner) fuel first

/-- Expressions whose parentheses are nested less deep than the fuel. -/
def expressionWithin : Nat → Parser Expr
  | 0 => throw .exhausted
  | fuel + 1 => do
      let first ← termWith fuel (expressionWithin fuel)
      chain sumOperator? (termWith fuel (expressionWithin fuel)) fuel first

def expression : Parser Expr := fun s =>
  expressionWithin s.budget s

def term : Parser Expr := fun s =>
  termWith s.budget (expressionWithin s.budget) s

def factor : Parser Expr := fun s =>
  factorWith (expressionWithin s.budget) s

end ProgramQuery.Program.Parser

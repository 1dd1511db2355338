import ProgramQuery.Query.Parser.Basic

/-! Expressions inside patterns. Where a factor is wanted and none stands, it is left missing. -/

namespace ProgramQuery.Query.Parser

open Text

def isSumSign (kind : TokenKind) : Bool :=
  kind == .plus || kind == .minus

def isProductSign (kind : TokenKind) : Bool :=
  kind == .multiply

/-- `(operator operand)*` after a first operand, grouped to the left. -/
def chain (isSign : TokenKind → Bool) (operand : Parser Tree) : Nat → Tree → Parser Tree
  | 0, _ => throw .exhausted
  | fuel + 1, left => do
      if (← peek).any isSign then
        shift
        let sign ← takenLeaf plainText
        let right ← operand
        chain isSign operand fuel (sign.withChildren [left, right])
      else
        return left

def factorWith (inner : Parser Tree) : Parser Tree := do
  match ← peek with
  | some .openParenthesis =>
    shift
    let e ← inner
    expect .closeParenthesis
    return e
  | some .integer =>
    shift
    takenLeaf plainText
  | some .name =>
    shift
    return .leaf "NAME" (plainText (← get).prev)
  | some .quotedName =>
    shift
    return .leaf "NAME" (trim (without '"' (rawText (← get).prev)))
  | _ => return .missing

def termWith (fuel : Nat) (inner : Parser Tree) : Parser Tree := do
  let first ← factorWith inner
  chain isProductSign (factorWith inner) fuel first

/-- Expressions whose parentheses are nested less deep than the fuel. -/
def expressionWithin : Nat → Parser Tree
  | 0 => throw .exhausted
  | fuel + 1 => do
      let first ← termWith fuel (expressionWithin fuel)
      chain isSumSign (termWith fuel (expressionWithin fuel)) fuel first

def expression : Parser Tree := do
  expressionWithin (← get).budget

def term : Parser Tree := do
  let fuel := (← get).budget
  termWith fuel (expressionWithin fuel)

def factor : Parser Tree := do
  factorWith (expressionWithin (← get).budget)

end ProgramQuery.Query.Parser

import ProgramQuery.Program.Token
import ProgramQuery.Text.Numeral

/-! The state of the SIMPLE parser and its single steps. A step gives a result or a failure and
keeps the state that it had reached in either case. -/

namespace ProgramQuery.Program

open Text

inductive Failure where
  /-- The text is not a program; the details are for the log only. -/
  | rejected
  /-- A token of one spelling was wanted where another text stands. -/
  | expected (line : Nat) (spelling received : String)
  /-- A variable name was wanted where another token stands. -/
  | expectedVariable (line : Nat) (received : String)
  /-- A complaint was asked for before any token had been read. -/
  | nothingRead
  /-- The last statement of an empty statement list is needed. -/
  | emptyList
  /-- A procedure calls itself, directly or through others. -/
  | endlessCalls
  /-- The step budget ran out, which the budget of a text is large enough to prevent. -/
  | exhausted
  deriving DecidableEq, Repr

def Failure.message : Failure → String
  | .rejected => "Check logs for more info"
  | .expected line spelling received =>
    "Line " ++ showInt line ++ ": Expected '" ++ spelling ++ "' but received '" ++ received
      ++ "' instead."
  | .expectedVariable line received =>
    "Line " ++ showInt line ++ ": Expected a variable name but received '" ++ received
      ++ "' instead."
  | .nothingRead => "no token has been read"
  | .emptyList => "a statement list is empty"
  | .endlessCalls => "the calls between procedures never end"
  | .exhausted => "the step budget is used up"

structure ParserState where
  rest : List Char
  pos : Nat
  line : Nat
  next : Lookahead
  prev : Lookahead
  deriving DecidableEq, Repr

abbrev Parser := EStateM Failure ParserState

namespace ParserState

/-- Newlines are dropped before anything is read. -/
def start (text : String) : ParserState :=
  ⟨text.toList.filter (· != '\n'), 0, 0, .unread, .unread⟩

def read (s : ParserState) : Lookahead × ParserState :=
  match Token.scan s.rest with
  | some (t, n, rest) => (.token t, { s with rest, pos := s.pos + n })
  | none => (.nothing, s)

def advance (s : ParserState) : ParserState :=
  { s.read.2 with next := s.read.1 }

/-- Two more than the number of tokens that can be left, the lookahead included: one for a look
that finds no further token and one for the level of nesting around it. -/
def budget (s : ParserState) : Nat :=
  s.rest.length + 3

/-- The complaint about the lookahead where one kind was wanted. After `if` and `while`, and before
`=`, a variable is missing; a name or an integer in the wrong place is shown with its text. -/
def complaint (s : ParserState) (wanted : TokenKind) : Failure :=
  let afterHead := s.prev.kind? = some .ifWord ∨ s.prev.kind? = some .whileWord
  match s.next with
  | .unread => .nothingRead
  | .nothing =>
    if afterHead then .expectedVariable s.line "" else .expected s.line wanted.spelling ""
  | .token t =>
    if t.kind = .name ∨ t.kind = .integer then .expected s.line wanted.spelling t.text
    else if afterHead ∨ t.kind = .assign then .expectedVariable s.line t.kind.spelling
    else .expected s.line wanted.spelling t.kind.spelling

end ParserState

namespace Parser

def shift : Parser Unit :=
  modify fun s => { s.advance with prev := s.next }

def peek : Parser (Option TokenKind) := do
  return (← get).next.kind?

/-- Takes a token of the wanted kind and gives its text. -/
def expect (wanted : TokenKind) : Parser String := do
  let s ← get
  if s.next.kind? = some wanted then
    shift
    return s.next.text
  else
    throw .rejected

/-- Takes a token whose kind has the given title; the empty title stands for no token at all. -/
def expectTitle (title : String) : Parser Unit := do
  if (← get).next.title = title then shift else throw .rejected

end Parser

end ProgramQuery.Program

import ProgramQuery.Keyed
import ProgramQuery.Query.Token
import ProgramQuery.Text.Numeral
import ProgramQuery.Text.Quoted
import ProgramQuery.Tree.Basic

/-! The state of the query parser and its single steps. -/

namespace ProgramQuery.Query

open Text

inductive Failure where
  /-- The lookahead is not of the wanted kind; both are given by their titles. -/
  | mismatch (found wanted : String)
  | redeclared (name : String)
  | tupleSelected
  | affectsAsked
  | notALine
  | notAProcedure
  | notAVariable
  | noPattern (name : String)
  | patternWithoutSynonym
  | secondNotEverything
  | thirdNotEverything
  | wrongAttribute
  | wrongAttributeValue
  /-- The query is well formed and cannot have an answer; a truth value was asked for or not. -/
  | noAnswer (boolean : Bool)
  | reported (info : String)
  /-- A number cannot be read off its text. -/
  | unreadable (text : String) (fault : NumeralFault)
  /-- A name stands for nothing although it was entered, at the place in words. -/
  | untyped (info : String)
  /-- A relation was read as one between a place and a variable and is none. -/
  | noEffect
  /-- A token in front of `Select` that starts no declaration is never passed. -/
  | stuck
  /-- The step budget ran out, which the budget of a text is large enough to prevent. -/
  | exhausted
  deriving DecidableEq, Repr

def Failure.info : Failure → String
  | .mismatch found wanted => found ++ " not equals " ++ wanted
  | .redeclared name => "Variable " ++ name ++ " already exist"
  | .tupleSelected => "Tuple Not Implemented"
  | .affectsAsked => "Affects Not Implemented"
  | .notALine => "stmt_ref error - bad argument - argument must be integer"
  | .notAProcedure => "proc ref error - argument must be procedure "
  | .notAVariable => "var ref error - argument must be variable "
  | .noPattern name => "Pattern syntax error - " ++ name ++ " must be ASSIGN IF or WHILE"
  | .patternWithoutSynonym => "pattern_cond error - token must be a synonym"
  | .secondNotEverything => "Second argument must be _"
  | .thirdNotEverything => "Third argument must be _"
  | .wrongAttribute => "attribute validate error"
  | .wrongAttributeValue => "attribute_value validate error"
  | .noAnswer boolean => if boolean then "false" else "none"
  | .reported info => info
  | .unreadable text .misspelt =>
    "invalid literal for int() with base 10: " ++ String.ofList ((quoted text).toList.take 200)
  | .unreadable _ (.tooLong digits) =>
    "Exceeds the limit (" ++ showInt mostDigits ++ " digits) for integer string conversion: "
      ++ "value has " ++ showInt digits
      ++ " digits; use sys.set_int_max_str_digits() to increase the limit"
  | .untyped info => info
  | .noEffect => "the relation is not about a variable"
  | .stuck => "a declaration or Select is missing"
  | .exhausted => "the step budget is used up"

/-- Errors are marked as such, apart from those of numerals; that there is no answer is itself the
answer. -/
def Failure.message (failure : Failure) : String :=
  match failure with
  | .noAnswer _ => failure.info
  | .unreadable _ _ => failure.info
  | _ => "#ERROR " ++ failure.info

/-- What a query may refer to in the program. -/
structure Scope where
  procedures : List String
  variableNames : List String
  lastLine : Int
  deriving Repr

structure ParserState where
  rest : List Char
  pos : Nat
  next : Option Token
  prev : Option Token
  /-- The declared types by name. A name may be entered without a type. -/
  declarations : Keyed (Option String)
  /-- The title of the token after `Select`. -/
  selected : String
  /-- The parts of the query that have been read. -/
  parts : List Tree
  deriving Repr

def titleOf (token : Option Token) : String :=
  match token with
  | some t => t.kind.title
  | none => ""

def rawText (token : Option Token) : String :=
  match token with
  | some t => t.text
  | none => ""

def plainText (token : Option Token) : String :=
  trim (rawText token)

/-- The text of a token without blanks around it and without quotes. -/
def unquoted (token : Option Token) : String :=
  without '"' (plainText token)

namespace ParserState

def start (text : List Char) : ParserState :=
  ⟨text, 0, none, none, [], "", []⟩

/-- Goes on at the same place in another text, whose newlines are dropped. -/
def reopen (s : ParserState) (text : String) : ParserState :=
  { s with rest := (text.toList.filter (· != '\n')).drop s.pos }

def tree (s : ParserState) : Tree :=
  .node "QUERY" "query" 0 s.parts

/-- Reads one token off the input. After a dot only a name is taken. -/
def read (s : ParserState) : Option Token × ParserState :=
  let afterDot := s.prev.map (·.kind) = some .dot
  match Token.scan (fun kind => !afterDot || kind == .name) s.rest with
  | some (t, rest) => (some t, { s with rest, pos := s.pos + t.text.length })
  | none => (none, s)

def advance (s : ParserState) : ParserState :=
  { s.read.2 with next := s.read.1 }

/-- Two more than the number of tokens that can be left, the lookahead included: one for a look
that finds no further token and one for the level of nesting around it. -/
def budget (s : ParserState) : Nat :=
  s.rest.length + 3

/-- Undeclared names have the empty type. -/
def declaredType (s : ParserState) (name : String) : Option String :=
  (s.declarations.get? name).getD (some "")

end ParserState

abbrev Parser := ReaderT Scope (EStateM Failure ParserState)

namespace Parser

/-- Takes the lookahead and reads the next one, already knowing what was taken. -/
def shift : Parser Unit :=
  modify fun s => { s with prev := s.next }.advance

def peek : Parser (Option TokenKind) := do
  return (← get).next.map (·.kind)

/-- Takes a token whose kind has the given title. -/
def expectTitle (wanted : String) : Parser Unit := do
  let s ← get
  if titleOf s.next = wanted then shift else throw (.mismatch (titleOf s.next) wanted)

def expect (wanted : TokenKind) : Parser Unit :=
  expectTitle wanted.title

def noAnswer {α : Type} : Parser α := do
  throw (.noAnswer ((← get).selected == "BOOLEAN"))

/-- Whether a statement number does not lie beyond the program. -/
def inProgram (line : Int) : Parser Bool := do
  return line ≤ (← read).lastLine

def declaredType (name : String) : Parser (Option String) := do
  return (← get).declaredType name

def numeral (text : String) : Parser Int :=
  match readNumeral text with
  | .ok n => return n
  | .error fault => throw (.unreadable text fault)

/-- A node for the token taken last, labelled with its kind. -/
def takenLeaf (text : Option Token → String) : Parser Tree := do
  let s ← get
  return .leaf (titleOf s.prev) (text s.prev)

def synonym : Parser Unit :=
  expect .name

/-- Takes a name and gives its declared type and itself, with what to say of a name without a
type. -/
def typed (complaint : String → String) : Parser (String × String) := do
  synonym
  let name := plainText (← get).prev
  match ← declaredType name with
  | some type => return (type, name)
  | none => throw (.untyped (complaint name))

end Parser

end ProgramQuery.Query

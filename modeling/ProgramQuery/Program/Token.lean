import ProgramQuery.Text.Lexeme

/-! Tokens of the SIMPLE language. The kinds are tried in one fixed order and the first that accepts
wins, so a keyword is recognised even where a name goes on after it. -/

namespace ProgramQuery.Program

open Text

inductive TokenKind where
  | procedureWord
  | openBracket
  | closeBracket
  | semicolon
  | plus
  | minus
  | callWord
  | whileWord
  | multiply
  | ifWord
  | thenWord
  | elseWord
  | assign
  | openParenthesis
  | closeParenthesis
  | name
  | integer
  deriving DecidableEq, Repr

namespace TokenKind

/-- All kinds, in the order in which they are tried. -/
def all : List TokenKind :=
  [.procedureWord, .openBracket, .closeBracket, .semicolon, .plus, .minus, .callWord, .whileWord,
    .multiply, .ifWord, .thenWord, .elseWord, .assign, .openParenthesis, .closeParenthesis, .name,
    .integer]

def title : TokenKind → String
  | .procedureWord => "PROCEDURE"
  | .openBracket => "OPEN_BRACKET"
  | .closeBracket => "CLOSE_BRACKET"
  | .semicolon => "SEMICOLON"
  | .plus => "PLUS"
  | .minus => "MINUS"
  | .callWord => "CALL"
  | .whileWord => "WHILE"
  | .multiply => "MULTIPLY"
  | .ifWord => "IF"
  | .thenWord => "THEN"
  | .elseWord => "ELSE"
  | .assign => "ASSIGN"
  | .openParenthesis => "OPEN_PARENTHESIS"
  | .closeParenthesis => "CLOSE_PARENTHESIS"
  | .name => "NAME"
  | .integer => "INTEGER"

/-- How a kind is spelled in a complaint: its own text, or a word for a class of texts. -/
def spelling : TokenKind → String
  | .procedureWord => "procedure"
  | .openBracket => "\x7b"
  | .closeBracket => "\x7d"
  | .semicolon => ";"
  | .plus => "+"
  | .minus => "-"
  | .callWord => "call"
  | .whileWord => "while"
  | .multiply => "*"
  | .ifWord => "if"
  | .thenWord => "then"
  | .elseWord => "else"
  | .assign => "="
  | .openParenthesis => "("
  | .closeParenthesis => ")"
  | .name => "name"
  | .integer => "integer"

def ofTitle? (title : String) : Option TokenKind :=
  all.find? (·.title == title)

/-- A name is a letter followed by letters and digits, an integer is a run of digits, and every
other kind is its spelling. -/
def recognise : TokenKind → Recogniser
  | .name => .spaced (.run isLetter isLetterOrDigit)
  | .integer => .spaced (.run isDigit isDigit)
  | kind => .word kind.spelling

end TokenKind

structure Token where
  kind : TokenKind
  text : String
  deriving DecidableEq, Repr

/-- The first token of the input, how many characters it takes with the blanks before it, and what
is left. -/
def Token.scan (cs : List Char) : Option (Token × Nat × List Char) :=
  TokenKind.all.findSome? fun kind =>
    match kind.recognise cs with
    | some (lexeme, rest) => some (⟨kind, trim (String.ofList lexeme)⟩, lexeme.length, rest)
    | none => none

/-- The token that a parser looks at: none has been asked for yet, the input has none here, or it
is there. -/
inductive Lookahead where
  | unread
  | nothing
  | token (t : Token)
  deriving DecidableEq, Repr

namespace Lookahead

def kind? : Lookahead → Option TokenKind
  | .token t => some t.kind
  | _ => none

def text : Lookahead → String
  | .token t => t.text
  | _ => ""

def title : Lookahead → String
  | .token t => t.kind.title
  | _ => ""

end Lookahead

end ProgramQuery.Program

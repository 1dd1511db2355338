import ProgramQuery.Relation.Name
import ProgramQuery.Text.Lexeme

/-! Tokens of the query language. As in programs, the kinds are tried in one fixed order and the
first that accepts wins. -/

namespace ProgramQuery.Query

open Text

inductive TokenKind where
  | select
  | suchThat
  | pattern
  | plus
  | minus
  | multiply
  | relation (r : RelationName)
  | affects
  | affectsStar
  | lessThan
  | openParenthesis
  | closeParenthesis
  | semicolon
  | equals
  | everything
  | attr
  | declaration
  | boolean
  | withWord
  | andWord
  | quotedName
  | quote
  | name
  | integer
  | comma
  | dot
  deriving DecidableEq, Repr

/-- The types of design entities that a query can declare, in the order in which they are tried. -/
def entityWords : List String :=
  ["while", "assign", "stmt", "variable", "constant", "procedure", "prog_line", "call", "if"]

/-- The attributes that a query can compare. -/
def attributeWords : List String :=
  ["stmt#", "value", "procName", "varName"]

/-- Names in queries may hold a hash sign after the first letter. -/
def isNameChar (c : Char) : Bool :=
  isLetterOrDigit c || c == '#'

namespace TokenKind

/-- All kinds, in the order in which they are tried: starred relations come before the plain ones,
and attributes and declarations before names. -/
def all : List TokenKind :=
  [.select, .suchThat, .pattern, .plus, .minus, .multiply, .relation .followsStar,
    .relation .parentStar, .relation .modifiesStar, .relation .usesStar, .relation .callsStar,
    .relation .nextStar, .relation .follows, .relation .parent, .relation .modifies,
    .relation .uses, .relation .calls, .relation .next, .affects, .affectsStar, .lessThan,
    .openParenthesis, .closeParenthesis, .semicolon, .equals, .everything, .attr,
    .declaration, .boolean, .withWord, .andWord, .quotedName, .quote, .name, .integer, .comma,
    .dot]

def title : TokenKind → String
  | .select => "SELECT"
  | .suchThat => "SUCH_THAT"
  | .pattern => "PATTERN"
  | .plus => "PLUS"
  | .minus => "MINUS"
  | .multiply => "MULTIPLY"
  | .relation r => r.title
  | .affects => "AFFECTS"
  | .affectsStar => "AFFECTST"
  | .lessThan => "MINORITY_SIGN"
  | .openParenthesis => "OPEN_PARENTHESIS"
  | .closeParenthesis => "CLOSE_PARENTHESIS"
  | .semicolon => "SEMICOLON"
  | .equals => "EQUALS_SIGN"
  | .everything => "EVERYTHING"
  | .attr => "ATTR_NAME"
  | .declaration => "DECLARATION"
  | .boolean => "BOOLEAN"
  | .withWord => "WITH"
  | .andWord => "AND"
  | .quotedName => "IDENT_QUOTE"
  | .quote => "QUOTE"
  | .name => "IDENT"
  | .integer => "INTEGER"
  | .comma => "COMMA"
  | .dot => "DOT"

/-- What each kind accepts. Any character but a newline may stand in front of an attribute, and a
declared type takes the blank after it. -/
def recognise : TokenKind → Recogniser
  | .select => .word "Select"
  | .suchThat => .word "such that"
  | .pattern => .word "pattern"
  | .plus => .word "+"
  | .minus => .word "-"
  | .multiply => .word "*"
  | .relation r => .word r.spelling
  | .affects => .word "Affects"
  | .affectsStar => .word "Affects*"
  | .lessThan => .word "<"
  | .openParenthesis => .word "("
  | .closeParenthesis => .word ")"
  | .semicolon => .word ";"
  | .equals => .word "="
  | .everything => .word "_"
  | .attr =>
    .firstOf (attributeWords.map fun w => .seq (.one (· != '\n')) (.literal w.toList))
  | .declaration => .firstOf (entityWords.map fun w => .seq (.word w) (.one isBlank))
  | .boolean => .word "BOOLEAN"
  | .withWord => .word "with"
  | .andWord => .word "and"
  | .quotedName =>
    .seq (.word "\"") (.seq (.run isLetter isNameChar) (.literal ['"']))
  | .quote => .word "\""
  | .name => .spaced (.run isLetter isNameChar)
  | .integer => .spaced (.run isDigit isDigit)
  | .comma => .word ","
  | .dot => .word "."

end TokenKind

/-- The text of a token keeps the blanks in front of it. -/
structure Token where
  kind : TokenKind
  text : String
  deriving DecidableEq, Repr

namespace Token

/-- The first token of the input whose kind is admitted, and what is left. -/
def scan (admitted : TokenKind → Bool) (cs : List Char) : Option (Token × List Char) :=
  TokenKind.all.findSome? fun kind =>
    if admitted kind then
      match kind.recognise cs with
      | some (lexeme, rest) => some (⟨kind, String.ofList lexeme⟩, rest)
      | none => none
    else
      none

end Token

end ProgramQuery.Query

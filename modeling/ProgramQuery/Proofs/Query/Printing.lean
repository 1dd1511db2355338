import ProgramQuery.Program.Outline
import ProgramQuery.Proofs.Program.Printing
import ProgramQuery.Proofs.Query.Tokens
import ProgramQuery.Query.Parser.Select

/-! Queries as they are meant, printed with single spaces, and the trees that stand for them. -/

namespace ProgramQuery

open Text

namespace Query

inductive EntityType where
  | loop
  | assignment
  | statement
  | var
  | constant
  | procedure
  | line
  | call
  | branch
  deriving DecidableEq

def EntityType.word : EntityType → String
  | .loop => "while"
  | .assignment => "assign"
  | .statement => "stmt"
  | .var => "variable"
  | .constant => "constant"
  | .procedure => "procedure"
  | .line => "prog_line"
  | .call => "call"
  | .branch => "if"

def EntityType.label : EntityType → String
  | .loop => "WHILE"
  | .assignment => "ASSIGN"
  | .statement => "STMT"
  | .var => "VARIABLE"
  | .constant => "CONSTANT"
  | .procedure => "PROCEDURE"
  | .line => "PROG_LINE"
  | .call => "CALL"
  | .branch => "IF"

structure Declaration where
  type : EntityType
  names : List String

inductive Reference where
  | synonym (x : String)
  | anything
  | line (digits : String)
  | name (x : String)

structure RelationCondition where
  relation : RelationName
  first : Reference
  second : Reference

inductive RightSide where
  | anything
  | whole (e : Expr)
  | part (e : Expr)

inductive PatternCondition where
  | assignment (x : String) (target : Reference) (value : RightSide)
  | branch (x : String) (control : Reference)
  | loop (x : String) (control : Reference)

inductive Attribute where
  | number
  | value
  | procedureName
  | variableName
  deriving DecidableEq

def Attribute.word : Attribute → String
  | .number => "stmt#"
  | .value => "value"
  | .procedureName => "procName"
  | .variableName => "varName"

inductive Comparand where
  | name (x : String)
  | line (digits : String)
  | synonym (x : String) (a : Attribute)

/-- A synonym by an attribute, or a program line by itself. -/
structure AttributeCondition where
  synonym : String
  attr : Option Attribute
  comparand : Comparand

inductive Clause where
  | suchThat (conditions : List RelationCondition)
  | comparing (conditions : List AttributeCondition)
  | pattern (conditions : List PatternCondition)

end Query

/-- A query with its clauses in any order. Where nothing is selected, a truth value is asked for. -/
structure Query where
  declarations : List Query.Declaration
  selected : Option String
  clauses : List Query.Clause

namespace Query

def typeOf? (q : Query) (x : String) : Option EntityType :=
  (q.declarations.find? fun d => d.names.contains x).map (·.type)

def TokenKind.token (kind : TokenKind) : Token :=
  ⟨kind, kind.spelling?.getD ""⟩

def synonymToken (x : String) : Token :=
  ⟨.name, x⟩

def separated {α : Type} (between : Token) (tokens : α → List Token) : List α → List Token
  | [] => []
  | [x] => tokens x
  | x :: y :: rest => tokens x ++ between :: separated between tokens (y :: rest)

def Declaration.tokens (d : Declaration) : List Token :=
  ⟨.declaration, d.type.word⟩
    :: (separated TokenKind.comma.token (fun x => [synonymToken x]) d.names
      ++ [TokenKind.semicolon.token])

def Reference.token : Reference → Token
  | .synonym x => synonymToken x
  | .anything => TokenKind.everything.token
  | .line digits => ⟨.integer, digits⟩
  | .name x => ⟨.quotedName, inQuotes x⟩

def inParentheses (arguments : List (List Token)) : List Token :=
  TokenKind.openParenthesis.token
    :: (separated TokenKind.comma.token id arguments ++ [TokenKind.closeParenthesis.token])

def RelationCondition.tokens (c : RelationCondition) : List Token :=
  (TokenKind.relation c.relation).token :: inParentheses [[c.first.token], [c.second.token]]

/-- The tokens of expressions look the same in programs and in queries. -/
def tokenOf (t : Program.Token) : Token :=
  match t.kind with
  | .plus => TokenKind.plus.token
  | .minus => TokenKind.minus.token
  | .multiply => TokenKind.multiply.token
  | .openParenthesis => TokenKind.openParenthesis.token
  | .closeParenthesis => TokenKind.closeParenthesis.token
  | .integer => ⟨.integer, t.text⟩
  | _ => ⟨.name, t.text⟩

def exprTokens (e : Expr) (level : Nat) : List Token :=
  (e.tokens level).map tokenOf

/-- A name and its quotes make one token. -/
def quotedTokens : Expr → List Token
  | .name x => [⟨.quotedName, inQuotes x⟩]
  | e => TokenKind.quote.token :: (exprTokens e 0 ++ [TokenKind.quote.token])

def RightSide.tokens : RightSide → List Token
  | .anything => [TokenKind.everything.token]
  | .whole e => quotedTokens e
  | .part e => TokenKind.everything.token :: (quotedTokens e ++ [TokenKind.everything.token])

def PatternCondition.tokens : PatternCondition → List Token
  | .assignment x target value => synonymToken x :: inParentheses [[target.token], value.tokens]
  | .branch x control =>
    synonymToken x :: inParentheses
      [[control.token], [TokenKind.everything.token], [TokenKind.everything.token]]
  | .loop x control =>
    synonymToken x :: inParentheses [[control.token], [TokenKind.everything.token]]

def Attribute.token (a : Attribute) : Token :=
  ⟨.attr, "." ++ a.word⟩

def Comparand.tokens : Comparand → List Token
  | .name x => [⟨.quotedName, inQuotes x⟩]
  | .line digits => [⟨.integer, digits⟩]
  | .synonym x a => [synonymToken x, a.token]

def AttributeCondition.tokens (c : AttributeCondition) : List Token :=
  synonymToken c.synonym
    :: (c.attr.toList.map Attribute.token ++ TokenKind.equals.token :: c.comparand.tokens)

def Clause.tokens : Clause → List Token
  | .suchThat conditions =>
    TokenKind.suchThat.token
      :: separated TokenKind.andWord.token RelationCondition.tokens conditions
  | .comparing conditions =>
    TokenKind.withWord.token
      :: separated TokenKind.andWord.token AttributeCondition.tokens conditions
  | .pattern conditions =>
    TokenKind.pattern.token
      :: separated TokenKind.andWord.token PatternCondition.tokens conditions

def selectedToken : Option String → Token
  | none => TokenKind.boolean.token
  | some x => synonymToken x

def tokens (q : Query) : List Token :=
  q.declarations.flatMap Declaration.tokens
    ++ TokenKind.select.token :: selectedToken q.selected :: q.clauses.flatMap Clause.tokens

/-- Whether there is no space between two tokens. An attribute stands right after its synonym. In a
tight text, quotes stand right around their expression. -/
def touch (tight : Bool) (before after : TokenKind) : Bool :=
  after == .attr
    || tight && before == .quote && [.name, .integer, .openParenthesis].contains after
    || tight && after == .quote && [.name, .integer, .closeParenthesis].contains before

/-- Tokens with single spaces between them and after the token before them. -/
def spaced (tight : Bool) : TokenKind → List Token → List Char
  | _, [] => []
  | before, t :: more =>
    (if touch tight before t.kind then [] else [' '])
      ++ (t.text.toList ++ spaced tight t.kind more)

def laidOut (tight : Bool) : List Token → List Char
  | [] => []
  | t :: more => t.text.toList ++ spaced tight t.kind more

def print (tight : Bool) (q : Query) : String :=
  String.ofList (laidOut tight q.tokens)

def synonymTree (q : Query) (x : String) (children : List Tree) : Tree :=
  .node (((q.typeOf? x).map EntityType.label).getD "") x 0 children

def referenceTree (q : Query) : Reference → Tree
  | .synonym x => q.synonymTree x []
  | .anything => .leaf "EVERYTHING" "_"
  | .line digits => .leaf "INTEGER" digits
  | .name x => .leaf "IDENT_QUOTE" x

def relationTree (q : Query) (c : RelationCondition) : Tree :=
  .node c.relation.title "" 0 [q.referenceTree c.first, q.referenceTree c.second]

def RightSide.tree : RightSide → Tree
  | .anything => .leaf "EVERYTHING" "_"
  | .whole e => e.toTree 0
  | .part e => .node "EVERYTHING" "_" 0 [e.toTree 0]

def patternTree (q : Query) : PatternCondition → Tree
  | .assignment x target value =>
    .node "PATTERN_ASSIGN" "" 0 [q.synonymTree x [], q.referenceTree target, value.tree]
  | .branch x control =>
    .node "PATTERN_IF" "" 0 [q.synonymTree x [], q.referenceTree control,
      .leaf "EVERYTHING" "_", .leaf "EVERYTHING" "_"]
  | .loop x control =>
    .node "PATTERN_WHILE" "" 0 [q.synonymTree x [], q.referenceTree control,
      .leaf "EVERYTHING" "_"]

def Attribute.tree (a : Attribute) : Tree :=
  .leaf "ATTR_NAME" a.word

def comparandTree (q : Query) : Comparand → Tree
  | .name x => .leaf "IDENT_QUOTE" x
  | .line digits => .leaf "INTEGER" digits
  | .synonym x a => q.synonymTree x [a.tree]

def attributeTree (q : Query) (c : AttributeCondition) : Tree :=
  .node "ATTR" "" 0
    [q.synonymTree c.synonym (c.attr.toList.map Attribute.tree), q.comparandTree c.comparand]

def comparisons (q : Query) : Clause → List Tree
  | .comparing conditions => conditions.map q.attributeTree
  | _ => []

def patterns (q : Query) : Clause → List Tree
  | .pattern conditions => conditions.map q.patternTree
  | _ => []

def relations (q : Query) : Clause → List Tree
  | .suchThat conditions => conditions.map q.relationTree
  | _ => []

/-- A part of the tree for conditions of one kind, which is there if there are any. -/
def part (label : String) : List Tree → List Tree
  | [] => []
  | conditions => [.node label "" 0 conditions]

def resultTree (q : Query) : Tree :=
  match q.selected with
  | none => .leaf "BOOLEAN" "BOOLEAN"
  | some x => q.synonymTree x []

/-- What is selected, and then the conditions of each kind from all clauses in the order of the text. -/
def tree (q : Query) : Tree :=
  .node "QUERY" "query" 0
    (.node "RESULT" "" 0 [q.resultTree]
      :: (part "WITH" (q.clauses.flatMap q.comparisons)
        ++ part "PATTERN" (q.clauses.flatMap q.patterns)
        ++ part "SUCH_THAT" (q.clauses.flatMap q.relations)))

/-- Selects all assignments. -/
def assignments : Query where
  declarations := [⟨.assignment, ["a"]⟩]
  selected := some "a"
  clauses := []

section WellFormed

variable (scope : Scope) (q : Query)

def Scope.HasLine (digits : String) : Prop :=
  isNumeral digits = true ∧ ∃ n, readNumeral digits = .ok n ∧ n ≤ scope.lastLine

def EntityType.isNumbered : EntityType → Bool
  | .procedure => false
  | .var => false
  | _ => true

def FitsLine : Reference → Prop
  | .synonym x => ∃ type, q.typeOf? x = some type ∧ type.isNumbered = true
  | .anything => True
  | .line digits => scope.HasLine digits
  | .name _ => False

def FitsProcedure : Reference → Prop
  | .synonym x => q.typeOf? x = some .procedure
  | .anything => True
  | .line _ => False
  | .name x => isQuotable x = true ∧ x ∈ scope.procedures

def FitsVariable : Reference → Prop
  | .synonym x => q.typeOf? x = some .var
  | .anything => True
  | .line _ => False
  | .name x => isQuotable x = true ∧ x ∈ scope.variableNames

def Reference.text : Reference → String
  | .synonym x => x
  | .anything => "_"
  | .line digits => digits
  | .name x => x

/-- Two arguments are not the same, unless both may be anything. -/
def Reference.Differ (first second : Reference) : Prop :=
  first.text ≠ second.text ∨ second = .anything

def RelationCondition.Accepted (c : RelationCondition) : Prop :=
  match c.relation with
  | .parent | .parentStar | .follows | .followsStar =>
    q.FitsLine scope c.first ∧ q.FitsLine scope c.second ∧ c.first.Differ c.second
  | .calls | .callsStar =>
    q.FitsProcedure scope c.first ∧ q.FitsProcedure scope c.second ∧ c.first.Differ c.second
  | .next | .nextStar => q.FitsLine scope c.first ∧ q.FitsLine scope c.second
  | .modifies | .modifiesStar | .uses | .usesStar =>
    (q.FitsLine scope c.first ∨ q.FitsProcedure scope c.first) ∧ q.FitsVariable scope c.second

structure IsSpelled (e : Expr) : Prop where
  names : ∀ x ∈ e.names, isSynonym x = true
  literals : ∀ digits ∈ e.literals, isNumeral digits = true

/-- An expression that can stand in quotes. A name alone may be any quoted name. -/
def IsQuoted : Expr → Prop
  | .name x => isQuotable x = true
  | e => IsSpelled e

def RightSide.Accepted : RightSide → Prop
  | .anything => True
  | .whole e => IsQuoted e
  | .part e => IsQuoted e

def PatternCondition.Accepted : PatternCondition → Prop
  | .assignment x target value =>
    q.typeOf? x = some .assignment ∧ q.FitsVariable scope target ∧ value.Accepted
  | .branch x control => q.typeOf? x = some .branch ∧ q.FitsVariable scope control
  | .loop x control => q.typeOf? x = some .loop ∧ q.FitsVariable scope control

def EntityType.has : EntityType → Attribute → Bool
  | .loop, .number => true
  | .assignment, .number => true
  | .statement, .number => true
  | .branch, .number => true
  | .call, .number => true
  | .call, .procedureName => true
  | .constant, .value => true
  | .procedure, .procedureName => true
  | .var, .variableName => true
  | _, _ => false

/-- What a thing of a type can be compared with. A name is one of the program, where the type has
names. -/
def Comparand.Accepted (type : EntityType) : Comparand → Prop
  | .name x =>
    isQuotable x = true ∧ (type = .procedure ∨ type = .call → x ∈ scope.procedures)
      ∧ (type = .var → x ∈ scope.variableNames)
  | .line digits => scope.HasLine digits
  | .synonym x a => ∃ type', q.typeOf? x = some type' ∧ type'.has a = true

def AttributeCondition.Accepted (c : AttributeCondition) : Prop :=
  ∃ type, q.typeOf? c.synonym = some type
    ∧ (match c.attr with
      | none => type = .line
      | some a => type.has a = true)
    ∧ c.comparand.Accepted scope q type

def Clause.Accepted : Clause → Prop
  | .suchThat conditions => conditions ≠ [] ∧ ∀ c ∈ conditions, c.Accepted scope q
  | .comparing conditions => conditions ≠ [] ∧ ∀ c ∈ conditions, c.Accepted scope q
  | .pattern conditions => conditions ≠ [] ∧ ∀ c ∈ conditions, c.Accepted scope q

/-- A query as the grammar accepts it. -/
structure WellFormed : Prop where
  synonyms : ∀ d ∈ q.declarations, ∀ x ∈ d.names, isSynonym x = true
  distinct : (q.declarations.flatMap Declaration.names).Nodup
  selected : ∀ x ∈ q.selected, ∃ type, q.typeOf? x = some type
  clauses : ∀ clause ∈ q.clauses, clause.Accepted scope q

end WellFormed

end Query

end ProgramQuery

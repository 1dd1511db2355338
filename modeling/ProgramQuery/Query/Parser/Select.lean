import ProgramQuery.Query.Parser.Clause
import ProgramQuery.Text.Case

/-! Whole queries: declarations, what is selected, and clauses. -/

namespace ProgramQuery.Query

open Text

namespace Parser

/-- Names up to a semicolon, each declared with one type. Commas between them are optional. -/
def declared (type : String) : Nat → Parser Unit
  | 0 => throw .exhausted
  | fuel + 1 => do
      let s ← get
      if titleOf s.next = TokenKind.semicolon.title then
        shift
      else
        let name := plainText s.next
        if s.declarations.has name then throw (.redeclared name)
        set { s with declarations := s.declarations.put name (some type) }
        synonym
        if (← peek) = some .comma then shift
        declared type fuel

def declaration : Parser Unit := do
  let s ← get
  declared (trim (upper (rawText s.prev))) s.budget

def declarations : Nat → Parser Unit
  | 0 => throw .exhausted
  | fuel + 1 => do
      match ← peek with
      | some .select => pure ()
      | some .declaration =>
        shift
        declaration
        declarations fuel
      | _ => throw .stuck

def designEntity : Parser Unit := do
  declarations (← get).budget

/-- The clauses of a query by kind, each in the order of the text. -/
structure Clauses where
  withs : List Tree := []
  patterns : List Tree := []
  relations : List Tree := []

/-- Clauses of all kinds in any order, as long as there are more. -/
def clauses : Nat → Clauses → Parser Clauses
  | 0, _ => throw .exhausted
  | fuel + 1, found => do
      match ← peek with
      | some .suchThat =>
        shift
        let more ← suchThatClause
        clauses fuel { found with relations := found.relations ++ more }
      | some .withWord =>
        shift
        let more ← withClause
        clauses fuel { found with withs := found.withs ++ more }
      | some .pattern =>
        shift
        let more ← patternClause
        clauses fuel { found with patterns := found.patterns ++ more }
      | _ => return found

/-- A clause node, unless there are no conditions of its kind. -/
def clauseNode (label : String) (conditions : List Tree) : List Tree :=
  if conditions.isEmpty then [] else [.node label "" 0 conditions]

/-- `BOOLEAN` or a synonym. -/
def selection : Parser Tree := do
  modify fun s => { s with selected := titleOf s.next }
  match ← peek with
  | some .lessThan => throw .tupleSelected
  | some .boolean =>
    shift
    return .leaf "BOOLEAN" "BOOLEAN"
  | _ =>
    let (type, name) ← typed (notExisting "select_cl")
    return .leaf type name

def addParts (more : List Tree) : Parser Unit :=
  modify fun s => { s with parts := s.parts ++ more }

/-- What is selected and the clauses: attribute comparisons first, then patterns, then
relations. What is selected is known even if a clause cannot be read. -/
def selectClause : Parser Unit := do
  designEntity
  expect .select
  let result ← selection
  addParts [.node "RESULT" "" 0 [result]]
  let found ← clauses (← get).budget {}
  addParts (clauseNode "WITH" found.withs ++ clauseNode "PATTERN" found.patterns
    ++ clauseNode "SUCH_THAT" found.relations)

/-- Reads a query from the place in a text where the last one ended. -/
def queryText (text : String) : Parser Unit := do
  modify fun s => (s.reopen text).advance
  selectClause

end Parser

/-- A query that has been read: its tree, its declarations, what kind of thing was selected and
where reading stopped. -/
structure Reading where
  tree : Tree
  stop : ParserState

/-- Reads a query; newlines are dropped first, and what follows the last clause is not looked
at. -/
def Reading.ofText (scope : Scope) (text : String) : Except Failure Reading :=
  match Parser.queryText text scope (.start []) with
  | .ok _ stop => .ok ⟨stop.tree, stop⟩
  | .error failure _ => .error failure

end ProgramQuery.Query

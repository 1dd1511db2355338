import ProgramQuery.Entity
import ProgramQuery.Fault
import ProgramQuery.KnowledgeBase

/-! The ways in which a relation can be asked. Each side of a relation is a member of a set that a
synonym is already restricted to, an open synonym of which only the type is known, or a fixed value
of the query, where `_` stands for anything. -/

namespace ProgramQuery.Relation

open Text

def number (text : String) : Asked Int :=
  match readInt? text with
  | some n => .ok n
  | none => .error (.notANumber text)

/-- The number that a thing stands for: a statement number itself, or what a numeral says. -/
def numberOf : Entity → Asked Int
  | .line n => .ok n
  | .name s => number s
  | .missing => .error .wrongKind

def anything : Entity := .name "_"

/-- The type of an open synonym that any statement fits. -/
def anyStatement : String := "STMT"

/-- Open arguments are given by their types. Asking for an open argument gives the things that
fit it. -/
structure Modes where
  memberMember : Entity → Entity → Asked Bool
  memberOpen : Entity → String → Asked (List Entity)
  memberFixed : Entity → Entity → Asked Bool
  openMember : String → Entity → Asked (List Entity)
  openOpen : String → String → Asked (List Entity × List Entity)
  openFixed : String → Entity → Asked (List Entity)
  fixedMember : Entity → Entity → Asked Bool
  fixedOpen : Entity → String → Asked (List Entity)
  fixedFixed : Entity → Entity → Asked Bool

def lines (ns : List Int) : List Entity :=
  ns.map .line

def names (xs : List String) : List Entity :=
  xs.map .name

end ProgramQuery.Relation

namespace ProgramQuery.KnowledgeBase

def statementLines (kb : KnowledgeBase) : List Int :=
  (List.range kb.statements.length).map fun (i : Nat) => (i : Int) + 1

def linesOfKind (kb : KnowledgeBase) (kind : String) : List Int :=
  (kb.statements.filter (·.kind == kind)).map (·.line)

def linesOfKindAndValue (kb : KnowledgeBase) (kind value : String) : List Int :=
  (kb.statements.filter fun s => s.kind == kind && s.value == value).map (·.line)

def procedureNames (kb : KnowledgeBase) : List String :=
  kb.procedures.map (·.name)

def hasLine (kb : KnowledgeBase) (line : Int) : Bool :=
  0 < line && line ≤ kb.statements.length

def constantValues (kb : KnowledgeBase) : Asked (List Int) :=
  kb.constants.rowNames.mapM Relation.number

end ProgramQuery.KnowledgeBase

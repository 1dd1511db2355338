import ProgramQuery.Relation.Lookup
import ProgramQuery.Sheet.Basic
import ProgramQuery.Tree.Expression

/-! The setting in which a query is evaluated, and the arguments of its conditions. -/

namespace ProgramQuery.Evaluation

open ProgramQuery.Relation

/-- The orders in which the members of a set of conditions and of a set of titles come out. Nothing is
known of them beforehand. -/
class Order where
  conditions : List Tree → List Tree
  titles : List String → List String
  conditions_perm (set : List Tree) : (conditions set).Perm set
  titles_perm (set : List String) : (titles set).Perm set

/-- Members come out as they were put in. -/
instance Order.asGiven : Order := ⟨id, id, fun _ => .refl _, fun _ => .refl _⟩

/-- The program that a query is about, and the order of sets while it is asked. -/
structure Subject where
  program : Tree
  knowledge : KnowledgeBase
  [order : Order]

/-- The sheet so far, and the conditions that are being followed up at the moment. -/
structure State where
  sheet : Sheet
  pending : List String

def State.start : State := ⟨.start, []⟩

abbrev EvalM := ReaderT Subject (EStateM Fault State)

def ask {α : Type} (asked : Asked α) : EvalM α :=
  match asked with
  | .ok a => pure a
  | .error fault => throw fault

def sheet : EvalM Sheet :=
  return (← get).sheet

def modifySheet (f : Sheet → Sheet) : EvalM Unit :=
  modify fun s => { s with sheet := f s.sheet }

/-- Records the outcome of a condition for a synonym. -/
def narrow (condition synonym : String) (outcome : Cell) : EvalM Unit := fun _ s =>
  match Sheet.narrow condition synonym outcome s.sheet with
  | .ok _ sheet => .ok () { s with sheet }
  | .error fault sheet => .error fault { s with sheet }

/-- How the relation with a title is asked. Many titles name no relation, which only matters when the
relation is asked of something. -/
def modes (kb : KnowledgeBase) (title : String) : Asked Modes :=
  match (RelationName.ofTitle? title).bind (RelationName.modes? kb) with
  | some m => .ok m
  | none => .error (.unknownName title)

inductive Argument where
  | fixed (value : Entity)
  /-- A synonym with the set it is restricted to, or else with its type. -/
  | synonym (name : String) (values : Cell)

namespace Argument

def isFixedKind (kind : String) : Bool :=
  kind == "INTEGER" || kind == "EVERYTHING" || kind == "IDENT_QUOTE"

/-- The name of a synonym, or the first letter of a fixed text. -/
def head : Argument → EvalM String
  | .fixed (.name text) =>
    match text.toList with
    | c :: _ => return c.toString
    | [] => throw .noSuchPart
  | .fixed _ => throw .wrongKind
  | .synonym name _ => return name

/-- How the argument is named in the title of its condition. -/
def title : Argument → String
  | .fixed _ => Sheet.fixedRow
  | .synonym name _ => name

end Argument

/-- The type of a synonym that nothing is known of; a program line is any statement. -/
def initialType (kind : String) : String :=
  if kind = "PROG_LINE" then anyStatement else kind

/-- The argument that something of a kind stands for in a query. A synonym gets its row on the sheet,
and stands for the values left to it if there are any. -/
def argument (kind : String) (value : Entity) : EvalM Argument := do
  if Argument.isFixedKind kind then return .fixed value
  let name := value.text
  modifySheet (·.declare name (.text kind))
  match (← sheet).final? name with
  | some values => return .synonym name (if values.truth then values else .text (initialType kind))
  | none => return .synonym name (.text (initialType kind))

end ProgramQuery.Evaluation

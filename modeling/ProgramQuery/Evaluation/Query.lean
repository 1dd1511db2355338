import ProgramQuery.Clause.Pattern
import ProgramQuery.Clause.With
import ProgramQuery.Evaluation.Cycle
import ProgramQuery.Sheet.Answer
import ProgramQuery.Tree.Digest

/-! Evaluating a whole query, clause by clause. -/

namespace ProgramQuery.Evaluation

/-- How little a relation or an argument restricts, by its label. Conditions are worked out from the
most restrictive to the least. -/
def laxity? : String → Option Nat
  | "INTEGER" => some 1
  | "IDENT_QUOTE" => some 1
  | "STMT" => some 2
  | "WHILE" => some 2
  | "ASSIGN" => some 2
  | "VARIABLE" => some 2
  | "CONSTANT" => some 2
  | "PROCEDURE" => some 2
  | "PROG_LINE" => some 2
  | "CALL" => some 2
  | "IF" => some 2
  | "EVERYTHING" => some 3
  | "NEXT" => some 1
  | "FOLLOWS" => some 2
  | "CALLS" => some 3
  | "PARENT" => some 4
  | "MODIFIES" => some 5
  | "USES" => some 6
  | "PARENTT" => some 7
  | "FOLLOWST" => some 8
  | "CALLST" => some 9
  | "NEXTT" => some 10
  | _ => none

def laxity (label : String) : Asked Nat :=
  match laxity? label with
  | some n => .ok n
  | none => .error (.unknownName label)

def conditionLaxity (condition : Tree) : Asked Nat := do
  let relation ← laxity (← condition.label)
  let first ← laxity (← (← condition.part 0).label)
  let second ← laxity (← (← condition.part 1).label)
  return relation + first + second

def distinct {α : Type} : List (String × α) → List (String × α)
  | [] => []
  | entry :: rest => entry :: (distinct rest).filter fun other => other.1 != entry.1

/-- The most restrictive conditions first, those that restrict alike as they were. -/
def byLaxity (conditions : List Tree) : Asked (List Tree) := do
  let weighed ← conditions.mapM fun c => return (← conditionLaxity c, c)
  return (weighed.mergeSort fun p q => decide (p.1 ≤ q.1)).map (·.2)

/-- The conditions in the order in which they are worked out, each once. They are sorted, put into a set
and, as they come out of it, sorted again. -/
def arranged (order : Order) (conditions : List Tree) : Asked (List Tree) := do
  let sorted ← byLaxity conditions
  let kept := (distinct (← sorted.mapM fun c => return (← c.digest, c))).map (·.2)
  byLaxity (order.conditions kept)

def suchThat (condition : Tree) : EvalM Unit := do
  let (kind, text) ← ask (do (← condition.part 0).heading)
  let (kind', text') ← ask (do (← condition.part 1).heading)
  let first ← argument kind (.name text)
  let second ← argument kind' (.name text')
  execute (← ask condition.label) first second

def setCell : Option EntitySet → Cell
  | some s => .set s
  | none => .datum .missing

def pattern (clause : Tree) : EvalM Unit := do
  let (kind, synonym) ← ask (do (← clause.part 0).heading)
  modifySheet (·.declare synonym (.text kind))
  let subject ← read
  let found ← ask (Clause.patternLines subject.program subject.knowledge clause)
  narrow "PATTERN" synonym (setCell found)

def comparison (clause : Tree) : EvalM Unit := do
  let (kind, synonym) ← ask (do (← clause.part 0).heading)
  modifySheet (·.declare synonym (.text kind))
  let found ← ask (Clause.withValues (← read).knowledge clause)
  narrow "WITH" synonym (.set found)

/-- Works out the conditions of a such that clause. Several of them are settled together. -/
def suchThatAll (conditions : List Tree) : EvalM Unit := do
  match conditions with
  | [] => throw .noSuchPart
  | [condition] => suchThat condition
  | _ =>
    let conditions ← ask (arranged (← read).order conditions)
    conditions.forM suchThat
    settle
    if ← ask (formCycle conditions) then resolveCycle conditions

def select (type name : String) : EvalM Unit :=
  modifySheet fun s => { s with selected := (type, name) }

def part (root : Tree) : EvalM Unit := do
  match ← ask root.label with
  | "RESULT" =>
    let (type, name) ← ask (do (← root.part 0).heading)
    select type name
  | "WITH" => root.children.forM comparison
  | "PATTERN" => root.children.forM pattern
  | "SUCH_THAT" => suchThatAll root.children
  | _ => return ()

def query (root : Tree) : EvalM String := do
  (← ask root.parts).forM part
  ask ((← sheet).answer (← read).knowledge)

end ProgramQuery.Evaluation

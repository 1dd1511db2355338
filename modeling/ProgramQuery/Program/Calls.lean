import ProgramQuery.Grid
import ProgramQuery.Program.Syntax

/-! Calls between procedures. -/

namespace ProgramQuery

def Stmt.callee? : Stmt → Option String
  | .call callee => some callee
  | _ => none

def Stmt.calleesOf (statements : List Stmt) : List String :=
  (Stmt.listings 1 statements).filterMap fun (_, s) => s.callee?

/-- One row for each name under which something is called. -/
def Program.callGrid (p : Program) : Grid Int :=
  .ofPairs (p.procedures.flatMap fun procedure =>
    (Stmt.calleesOf procedure.body).map (procedure.name, ·))

/-- The names reached from a name by one or more calls, if following them takes less than `fuel`
calls in a row. -/
def Grid.calledWithin (calls : Grid Int) : Nat → String → Option (List String)
  | 0, _ => none
  | fuel + 1, name =>
    let direct := calls.columnsOf name
    match direct.mapM (calledWithin calls fuel) with
    | some further => some (direct ++ further.flatten).eraseDups
    | none => none

/-- The names reached by one or more calls. There is no such list where the calls never end: a
chain of calls that visits no row twice is at most as long as the table. -/
def Grid.called? (calls : Grid Int) (name : String) : Option (List String) :=
  calls.calledWithin (calls.size + 1) name

end ProgramQuery

import ProgramQuery.Program.Syntax

/-! Which statement holds which, and which comes after which in one statement list. -/

namespace ProgramQuery

def Stmt.childLines (line : Nat) : Stmt → List Nat
  | .assign _ _ => []
  | .call _ => []
  | .loop _ body => Stmt.lines (line + 1) body
  | .branch _ thenBody elseBody =>
    Stmt.lines (line + 1) thenBody ++ Stmt.lines (line + 1 + Stmt.sizes thenBody) elseBody

/-- Each statement of a list paired with the one after it. -/
def Stmt.neighbours (line : Nat) (statements : List Stmt) : List (Nat × Nat) :=
  let lines := Stmt.lines line statements
  lines.zip lines.tail

def Stmt.innerNeighbours (line : Nat) : Stmt → List (Nat × Nat)
  | .assign _ _ => []
  | .call _ => []
  | .loop _ body => Stmt.neighbours (line + 1) body
  | .branch _ thenBody elseBody =>
    Stmt.neighbours (line + 1) thenBody
      ++ Stmt.neighbours (line + 1 + Stmt.sizes thenBody) elseBody

/-- Every statement that can hold others with the numbers of those directly inside it. -/
def Program.families (p : Program) : List (Nat × List Nat) :=
  p.listing.filterMap fun (line, s) =>
    match s with
    | .loop _ _ => some (line, s.childLines line)
    | .branch _ _ _ => some (line, s.childLines line)
    | _ => none

def Program.neighbours (p : Program) : List (Nat × Nat) :=
  p.numbered.flatMap (fun (line, procedure) => Stmt.neighbours line procedure.body)
    ++ p.listing.flatMap (fun (line, s) => s.innerNeighbours line)

end ProgramQuery

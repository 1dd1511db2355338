import ProgramQuery.Program.Syntax

/-! Control flow between numbered statements. -/

namespace ProgramQuery

mutual

/-- Whether it is settled where control leaves a statement: both branches of a conditional have to
end in something. -/
def Stmt.ends : Stmt → Bool
  | .assign _ _ => true
  | .call _ => true
  | .loop _ _ => true
  | .branch _ thenBody elseBody => Stmt.listEnds thenBody && Stmt.listEnds elseBody

def Stmt.listEnds : List Stmt → Bool
  | [] => false
  | [s] => s.ends
  | _ :: s :: rest => Stmt.listEnds (s :: rest)

end

mutual

/-- The numbers of the statements from which control leaves the statement with number `line`. -/
def Stmt.exits (line : Nat) : Stmt → List Nat
  | .assign _ _ => [line]
  | .call _ => [line]
  | .loop _ _ => [line]
  | .branch _ thenBody elseBody =>
    Stmt.listExits (line + 1) thenBody
      ++ Stmt.listExits (line + 1 + Stmt.sizes thenBody) elseBody

def Stmt.listExits (line : Nat) : List Stmt → List Nat
  | [] => []
  | [s] => s.exits line
  | s :: s' :: rest => Stmt.listExits (line + s.size) (s' :: rest)

end

/-- Steps from each statement of one list to the statement after it. -/
def Stmt.sequenceSteps (line : Nat) : List Stmt → List (Nat × Nat)
  | [] => []
  | [_] => []
  | s :: s' :: rest =>
    (s.exits line).map (·, line + s.size) ++ Stmt.sequenceSteps (line + s.size) (s' :: rest)

/-- Steps into, inside and back from the bodies of a statement. The head of a conditional leads to
the number after it and to the number after its first branch. -/
def Stmt.innerSteps (line : Nat) : Stmt → List (Nat × Nat)
  | .assign _ _ => []
  | .call _ => []
  | .loop _ body =>
    (line, line + 1) :: Stmt.sequenceSteps (line + 1) body
      ++ (Stmt.listExits (line + 1) body).map (·, line)
  | .branch _ thenBody elseBody =>
    let elseLine := line + 1 + Stmt.sizes thenBody
    (line, line + 1) :: (line, elseLine) :: Stmt.sequenceSteps (line + 1) thenBody
      ++ Stmt.sequenceSteps elseLine elseBody

def Program.steps (p : Program) : List (Nat × Nat) :=
  p.numbered.flatMap (fun (line, procedure) => Stmt.sequenceSteps line procedure.body)
    ++ p.listing.flatMap (fun (line, s) => s.innerSteps line)

end ProgramQuery

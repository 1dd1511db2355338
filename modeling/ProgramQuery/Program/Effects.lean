import ProgramQuery.Program.Calls

/-! Which variables statements and procedures modify and use. -/

namespace ProgramQuery

/-- The variables a statement modifies without regard to the statements inside it. -/
def Stmt.ownModified : Stmt → List String
  | .assign target _ => [target]
  | _ => []

def Stmt.ownUsed : Stmt → List String
  | .assign _ value => value.names
  | .call _ => []
  | .loop condition _ => [condition]
  | .branch condition _ _ => [condition]

/-- What one statement contributes on its own to an effect, such as modifying or using. -/
abbrev Effect := Stmt → List String

namespace Effect

def ofList (effect : Effect) (statements : List Stmt) : List String :=
  ((Stmt.listings 1 statements).flatMap fun (_, s) => effect s).eraseDups

def ofName (effect : Effect) (p : Program) (name : String) : List String :=
  effect.ofList ((p.procedures.filter (·.name == name)).flatMap (·.body))

def ofNames (effect : Effect) (p : Program) : Keyed (List String) :=
  (p.procedures.map (·.name)).eraseDups.map fun name => (name, effect.ofName p name)

/-- Goes through some procedures in turn. Each takes over what is recorded by then for the procedures
that it calls, directly or through others, as `called?` lists them; nothing comes of it where the
calls never end. -/
def takeOver (called? : String → Option (List String))
    : List String → Keyed (List String) → Option (Keyed (List String))
  | [], rows => some rows
  | name :: rest, rows => do
      let called ← called? name
      let columns := (name :: called).flatMap fun other => (rows.get? other).getD []
      takeOver called? rest (rows.put name columns.eraseDups)

/-- The effect of one statement with that of the statements inside it and the procedures that any
of them calls. -/
def ofStmt (effect : Effect) (procedures : Keyed (List String)) (s : Stmt) : List String :=
  (effect.ofList [s]
    ++ (Stmt.calleesOf [s]).flatMap fun callee => (procedures.get? callee).getD []).eraseDups

end Effect

/-- The table of an effect: a row for each statement number and procedure name with a column for
each variable. A statement or procedure without effect has no row, unless `keeps` holds of the
statement. -/
def Program.effectGrid? (p : Program) (called? : String → Option (List String)) (effect : Effect)
    (keeps : Stmt → Bool)
    : Option (Grid Int) := do
  let procedures ← Effect.takeOver called? (p.procedures.map (·.name)) (effect.ofNames p)
  let addProcedure (g : Grid Int) (entry : String × List String) := g.putAll entry.1 entry.2 1
  let addStmt (g : Grid Int) (entry : Nat × Stmt) :=
    let row := Text.showInt entry.1
    (if keeps entry.2 then g.addRow row else g).putAll row (effect.ofStmt procedures entry.2) 1
  return p.listing.foldl addStmt (procedures.foldl addProcedure .empty)

def Stmt.isContainer : Stmt → Bool
  | .loop _ _ => true
  | .branch _ _ _ => true
  | _ => false

def Program.modifies? (p : Program) : Option (Grid Int) :=
  p.effectGrid? p.callGrid.called? Stmt.ownModified Stmt.isContainer

def Program.uses? (p : Program) : Option (Grid Int) :=
  p.effectGrid? p.callGrid.called? Stmt.ownUsed (fun _ => false)

end ProgramQuery

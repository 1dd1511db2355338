/-! The SIMPLE language: expressions, statements, procedures. Statements carry no numbers; a
statement's number is its place in the program text and is worked out where it is needed. -/

namespace ProgramQuery

inductive Operator where
  | plus
  | minus
  | times
  deriving DecidableEq, Repr

inductive Expr where
  | name (x : String)
  | literal (digits : String)
  | binary (op : Operator) (left right : Expr)
  deriving DecidableEq, Repr

inductive Stmt where
  | assign (target : String) (value : Expr)
  | call (callee : String)
  | loop (condition : String) (body : List Stmt)
  | branch (condition : String) (thenBody elseBody : List Stmt)
  deriving Repr

structure Procedure where
  name : String
  body : List Stmt
  deriving Repr

structure Program where
  procedures : List Procedure
  deriving Repr

namespace Expr

/-- The names of an expression from left to right, repeated as often as they occur. -/
def names : Expr → List String
  | .name x => [x]
  | .literal _ => []
  | .binary _ left right => left.names ++ right.names

def literals : Expr → List String
  | .name _ => []
  | .literal digits => [digits]
  | .binary _ left right => left.literals ++ right.literals

end Expr

mutual

/-- How many statements a statement spans, itself included. -/
def Stmt.size : Stmt → Nat
  | .assign _ _ => 1
  | .call _ => 1
  | .loop _ body => 1 + Stmt.sizes body
  | .branch _ thenBody elseBody => 1 + Stmt.sizes thenBody + Stmt.sizes elseBody

def Stmt.sizes : List Stmt → Nat
  | [] => 0
  | s :: rest => s.size + Stmt.sizes rest

end

namespace Stmt

/-- The kind of a statement as design tables and queries name it. -/
def kind : Stmt → String
  | .assign _ _ => "ASSIGN"
  | .call _ => "CALL"
  | .loop _ _ => "WHILE"
  | .branch _ _ _ => "IF"

/-- The name that heads a statement: its target, its callee or its condition. -/
def head : Stmt → String
  | .assign target _ => target
  | .call callee => callee
  | .loop condition _ => condition
  | .branch condition _ _ => condition

end Stmt

/-- The numbers of the statements of one list whose first statement has number `line`. -/
def Stmt.lines (line : Nat) : List Stmt → List Nat
  | [] => []
  | s :: rest => line :: Stmt.lines (line + s.size) rest

mutual

/-- Every statement within a statement under its number, outermost first, in the order of the
text. -/
def Stmt.listing (line : Nat) : Stmt → List (Nat × Stmt)
  | .assign target value => [(line, .assign target value)]
  | .call callee => [(line, .call callee)]
  | .loop condition body => (line, .loop condition body) :: Stmt.listings (line + 1) body
  | .branch condition thenBody elseBody =>
    (line, .branch condition thenBody elseBody)
      :: (Stmt.listings (line + 1) thenBody
        ++ Stmt.listings (line + 1 + Stmt.sizes thenBody) elseBody)

def Stmt.listings (line : Nat) : List Stmt → List (Nat × Stmt)
  | [] => []
  | s :: rest => s.listing line ++ Stmt.listings (line + s.size) rest

end

/-- The procedures of a program with the number that the first statement of each has, or would
have. -/
def Program.starts (line : Nat) : List Procedure → List (Nat × Procedure)
  | [] => []
  | p :: rest => (line, p) :: Program.starts (line + Stmt.sizes p.body) rest

/-- Numbering starts at one and runs through the procedures in order. -/
def Program.numbered (p : Program) : List (Nat × Procedure) :=
  Program.starts 1 p.procedures

def Program.listing (p : Program) : List (Nat × Stmt) :=
  p.numbered.flatMap fun (line, procedure) => Stmt.listings line procedure.body

end ProgramQuery

import ProgramQuery.Program.Syntax
import ProgramQuery.Tree.Basic

/-! Programs laid out as labelled trees. Every node of a statement carries the statement's number;
statement lists, procedures and the program itself carry none. -/

namespace ProgramQuery

def Operator.label : Operator → String
  | .plus => "PLUS"
  | .minus => "MINUS"
  | .times => "MULTIPLY"

def Operator.symbol : Operator → String
  | .plus => "+"
  | .minus => "-"
  | .times => "*"

def Expr.toTree (line : Int) : Expr → Tree
  | .name x => .node "NAME" x line []
  | .literal digits => .node "INTEGER" digits line []
  | .binary op left right =>
    .node op.label op.symbol line [left.toTree line, right.toTree line]

/-- A statement list is labelled with the text that opens it. -/
def Stmt.listTree (opening : String) (statements : List Tree) : Tree :=
  .node "STMT_LIST" opening 0 statements

mutual

def Stmt.toTree (line : Nat) : Stmt → Tree
  | .assign target value =>
    .node "ASSIGN" "" line [.node "NAME" target line [], value.toTree line]
  | .call callee => .node "CALL" callee line []
  | .loop condition body =>
    .node "WHILE" "" line
      [.node "NAME" condition line [],
        Stmt.listTree "\x7b" (Stmt.toTrees (line + 1) body)]
  | .branch condition thenBody elseBody =>
    .node "IF" "" line
      [.node "NAME" condition line [],
        Stmt.listTree "\x7b" (Stmt.toTrees (line + 1) thenBody),
        Stmt.listTree "\x7b" (Stmt.toTrees (line + 1 + Stmt.sizes thenBody) elseBody)]

def Stmt.toTrees (line : Nat) : List Stmt → List Tree
  | [] => []
  | s :: rest => s.toTree line :: Stmt.toTrees (line + s.size) rest

end

def Procedure.toTree (line : Nat) (p : Procedure) : Tree :=
  .node "PROCEDURE" p.name 0 [Stmt.listTree "\x7b" (Stmt.toTrees line p.body)]

/-- The root carries the title of the program, which is the name of its file. -/
def Program.toTree (title : String) (p : Program) : Tree :=
  .node "PROGRAM" title 0 (p.numbered.map fun (line, procedure) => procedure.toTree line)

end ProgramQuery

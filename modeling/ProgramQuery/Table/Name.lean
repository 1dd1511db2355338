/-! The tables that are kept about a program, and the headings they are shown under. -/

namespace ProgramQuery

inductive TableName where
  | variableNames
  | procedures
  | statements
  | constants
  | uses
  | modifies
  | parent
  | follows
  | calls
  | next
  deriving DecidableEq, Repr

namespace TableName

def heading : TableName → String
  | .variableNames => "VarTable"
  | .procedures => "ProcTable"
  | .statements => "StatementTable"
  | .constants => "ConstTable"
  | .uses => "UsesTable"
  | .modifies => "ModifiesTable"
  | .parent => "ParentTable"
  | .follows => "FollowsTable"
  | .calls => "CallsTable"
  | .next => "NextTable"

/-- The heading under which a table is printed, which for one of them starts with a small letter. -/
def printedHeading : TableName → String
  | .follows => "followsTable"
  | table => table.heading

def printed (table : TableName) (body : String) : String :=
  table.printedHeading ++ ":\n" ++ body ++ "\n"

def logged (table : TableName) (body : String) : String :=
  table.heading ++ ": \n" ++ body

end TableName

end ProgramQuery

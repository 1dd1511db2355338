import ProgramQuery.Text.Blank

/-! Paths below the working directory, where the tables are kept and the exercises are written. -/

namespace ProgramQuery.Exercise

open Text

/-- Why a path leads nowhere. -/
inductive PathFault where
  /-- There is nothing of that name. -/
  | nothingThere
  /-- A path goes on after a file. -/
  | notADirectory
  /-- A path holds the character with the code zero. -/
  | notAPath
  deriving DecidableEq, Repr

def tablesDirectory : List String := ["tables"]

def exerciseDirectory : List String := ["tests", "generate"]

def tableFiles : List String :=
  ["VarTable.json", "ProcTable.json", "ConstTable.json", "StatementTable.json"]

/-- Whether some steps from the working directory end in a directory. Nothing else is kept there than
the tables and the exercises. -/
def isDirectory (steps : List String) : Bool :=
  steps.isPrefixOf tablesDirectory || steps.isPrefixOf exerciseDirectory

def isFile (steps : List String) : Bool :=
  tableFiles.any fun name => steps == tablesDirectory ++ [name]

/-- The directory that some steps lead to from a directory. Nothing is known of what lies above the
working directory. -/
def walk : List String → List String → Except PathFault (List String)
  | here, [] => .ok here
  | here, "" :: rest => walk here rest
  | here, "." :: rest => walk here rest
  | [], ".." :: _ => .error .nothingThere
  | here, ".." :: rest => walk here.dropLast rest
  | here, step :: rest =>
    let there := here ++ [step]
    if isDirectory there then walk there rest
    else if isFile there then .error .notADirectory
    else .error .nothingThere

def resolve (path : String) : Except PathFault (List String) :=
  if path.toList.contains (Char.ofNat 0) then .error .notAPath
  else
    match splitAt '/' path with
    | "" :: _ => .error .nothingThere
    | steps => walk [] steps

/-- The directory that a path to a file leads through. -/
def resolveAround (path : String) : Except PathFault (List String) :=
  if path.toList.contains (Char.ofNat 0) then .error .notAPath
  else resolve ("/".intercalate (splitAt '/' path).dropLast)

end ProgramQuery.Exercise

import ProgramQuery.Fault
import ProgramQuery.Text.Numeral
import ProgramQuery.Tree.Basic

/-! Trees as indented outlines, one line for each node with its depth in front. -/

namespace ProgramQuery.Tree

open Text

def summary (label text : String) : String :=
  "TYPE:" ++ label ++ "\t VALUE:" ++ text

def outlineLine (depth : Int) (label text : String) (line : Int) : String :=
  showInt depth ++ ": " ++ summary label text ++ "\t LINE:" ++ showInt line

mutual

/-- The lines of an outline whose top stands at a given depth. -/
def outline (depth : Int) : Tree → Asked (List String)
  | .missing => .error .nothingThere
  | .node label text line children =>
    return outlineLine depth label text line :: (← outlines (depth + 1) children)

def outlines (depth : Int) : List Tree → Asked (List String)
  | [] => return []
  | t :: rest => return (← outline depth t) ++ (← outlines depth rest)

end

end ProgramQuery.Tree

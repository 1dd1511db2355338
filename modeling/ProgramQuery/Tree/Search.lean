import ProgramQuery.Fault
import ProgramQuery.Tree.Basic

/-! Looking for nodes. A search goes from a node to its children, the last child first. It fails when
it comes to a place where a node should hang and none does. -/

namespace ProgramQuery.Tree

mutual

/-- The places of a tree in search order, followed by `after`. -/
def visitsThen : Tree → List Tree → List Tree
  | .missing, after => .missing :: after
  | .node label text line children, after =>
    .node label text line children :: visitsLastThen children after

def visitsLastThen : List Tree → List Tree → List Tree
  | [], after => after
  | t :: rest, after => visitsLastThen rest (t.visitsThen after)

end

def visits (t : Tree) : List Tree :=
  t.visitsThen []

def hasLine (line : Int) (t : Tree) : Bool :=
  t.line? == some line

def hasLabel (label : String) (t : Tree) : Bool :=
  t.label? == some label

def hasText (text : String) (t : Tree) : Bool :=
  t.text? == some text

def testing (test : Tree → Bool) : Tree → Asked Bool
  | .missing => .error .nothingThere
  | found => .ok (test found)

/-- The node that a search meets first among those that pass a test. -/
def find? (t : Tree) (test : Tree → Bool) : Asked (Option Tree) :=
  t.visits.findM? (testing test)

def findAll (t : Tree) (test : Tree → Bool) : Asked (List Tree) :=
  t.visits.filterM (testing test)

/-- The numbers of the statements that all nodes with a label belong to. -/
def linesOfLabel (t : Tree) (label : String) : Asked (List Int) :=
  return (← t.findAll (hasLabel label)).filterMap line?

/-- The last number of the unbroken run that starts at one, or zero. The search for the number after
it goes through the whole tree. -/
def lastLine (t : Tree) : Asked Nat := do
  let nodes ← t.findAll fun _ => true
  let rec climb : Nat → Nat → Nat
    | 0, line => line
    | fuel + 1, line =>
      if nodes.any (hasLine (line + 1)) then climb fuel (line + 1) else line
  return climb nodes.length 0

end ProgramQuery.Tree

import ProgramQuery.Position
import ProgramQuery.Tree.Digest
import ProgramQuery.Tree.Outline

/-! Nodes that can hang in several places at once. A node that is given further children shows them
wherever it hangs. -/

namespace ProgramQuery

/-- A child is a tree of its own or the shared node at a place. -/
inductive Branch where
  | own (t : Tree)
  | shared (place : Nat)
  deriving Repr

structure SharedNode where
  label : String
  text : String
  line : Int
  branches : List Branch
  deriving Repr

def SharedNode.ofTree? : Tree → Option SharedNode
  | .missing => none
  | .node label text line children => some ⟨label, text, line, children.map .own⟩

/-- The shared nodes; a place may be without a node. -/
structure SharedNodes where
  nodes : List (Option SharedNode)
  deriving Repr

namespace SharedNodes

def ofTrees (ts : List Tree) : SharedNodes :=
  ⟨ts.map SharedNode.ofTree?⟩

/-- The place that an index means; negative ones count from the end. -/
def place (s : SharedNodes) (index : Int) : Asked Nat :=
  match position? s.nodes.length index with
  | some place => .ok place
  | none => .error .noSuchPart

def node? (s : SharedNodes) (place : Nat) : Option SharedNode :=
  s.nodes[place]?.join

def node (s : SharedNodes) (place : Nat) : Asked SharedNode :=
  match s.node? place with
  | some n => .ok n
  | none => .error .nothingThere

/-- Hangs shared nodes under a shared node, after the children it has. Nothing changes where one of
them is not there. -/
def hang (s : SharedNodes) (index : Int) (children : List Int) : Asked SharedNodes := do
  let place ← s.place index
  let n ← s.node place
  let places ← children.mapM s.place
  return ⟨s.nodes.set place (some { n with branches := n.branches ++ places.map .shared })⟩

/-- The tree below a place, if no more than a number of shared nodes hang below each other. -/
def treeWithin (s : SharedNodes) : Nat → Nat → Asked Tree
  | fuel, place =>
    match s.node? place, fuel with
    | none, _ => return .missing
    | some _, 0 => .error .exhausted
    | some n, fuel + 1 => do
        let children ← n.branches.mapM fun branch =>
          match branch with
          | .own t => return t
          | .shared place => treeWithin s fuel place
        return .node n.label n.text n.line children

def tree (s : SharedNodes) (index : Int) : Asked Tree := do
  s.treeWithin s.nodes.length (← s.place index)

/-- The outline of the tree below a place, if no more than a number of shared nodes hang below each
other. What comes first on the way down decides between a missing node and an endless descent. -/
def outlineWithin (s : SharedNodes) : Nat → Nat → Int → Asked (List String)
  | 0, _, _ => .error .exhausted
  | fuel + 1, place, depth => do
      let n ← s.node place
      let below ← n.branches.mapM fun branch =>
        match branch with
        | .own t => t.outline (depth + 1)
        | .shared place => outlineWithin s fuel place (depth + 1)
      return Tree.outlineLine depth n.label n.text n.line :: below.flatten

def outline (s : SharedNodes) (index depth : Int) : Asked (List String) := do
  s.outlineWithin (s.nodes.length + 1) (← s.place index) depth

/-- A child without anything that hangs below it. -/
def childTop (s : SharedNodes) : Branch → Tree
  | .own .missing => .missing
  | .own (.node label text line _) => .node label text line []
  | .shared place =>
    match s.node? place with
    | none => .missing
    | some n => .node n.label n.text n.line []

/-- A shared node with the tops of its children. -/
def top (s : SharedNodes) (index : Int) : Asked Tree := do
  match s.node? (← s.place index) with
  | none => return .missing
  | some n => return .node n.label n.text n.line (n.branches.map s.childTop)

/-- Compares the top of a shared node with the top of another one. -/
def looksLike (s : SharedNodes) (first second : Int) : Asked Bool := do
  let t ← s.top first
  let _ ← t.parts
  t.looksLike (← s.top second)

def summary (s : SharedNodes) (index : Int) : Asked String := do
  match ← s.top index with
  | .missing => return "None"
  | .node label text _ _ => return Tree.summary label text

/-- The text by which a shared node is told apart; a place without a node has none. -/
def digest? (s : SharedNodes) (index : Int) : Asked (Option String) := do
  match ← s.top index with
  | .missing => return none
  | t => return some (← t.digest)

/-- Whether two shared nodes are told apart by nothing. A place without a node is the same only as
another such place, and then the other node is not looked at. -/
def same (s : SharedNodes) (first second : Int) : Asked Bool := do
  match ← s.top first, ← s.top second with
  | .missing, .missing => return true
  | .missing, _ => return false
  | _, .missing => return false
  | t, u => return (← t.digest) == (← u.digest)

end SharedNodes

end ProgramQuery

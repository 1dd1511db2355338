/-! Labelled trees. Programs and queries are both laid out as trees of labelled nodes that carry a
text and the number of the statement they belong to. -/

namespace ProgramQuery

inductive Tree where
  /-- A place where a node should hang and none does. -/
  | missing
  | node (label text : String) (line : Int) (children : List Tree)
  deriving Repr, Inhabited

namespace Tree

def leaf (label text : String) : Tree :=
  .node label text 0 []

def label? : Tree → Option String
  | .missing => none
  | .node label _ _ _ => some label

def text? : Tree → Option String
  | .missing => none
  | .node _ text _ _ => some text

def line? : Tree → Option Int
  | .missing => none
  | .node _ _ line _ => some line

def children : Tree → List Tree
  | .missing => []
  | .node _ _ _ children => children

def child? (t : Tree) (i : Nat) : Option Tree :=
  t.children[i]?

def heading? : Tree → Option (String × String)
  | .missing => none
  | .node label text _ _ => some (label, text)

def withChildren (more : List Tree) : Tree → Tree
  | .missing => .missing
  | .node label text line children => .node label text line (children ++ more)

end Tree

end ProgramQuery

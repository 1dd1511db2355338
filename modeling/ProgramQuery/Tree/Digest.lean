import ProgramQuery.Tree.Expression

/-! A text by which nodes are told apart. -/

namespace ProgramQuery.Tree

/-- The labels of starred relations that count as the relation without the star. -/
def starredLabels : List String :=
  ["CALLST", "PARENTT", "NEXTT", "FOLLOWST"]

/-- The label that a node is told apart by. -/
def plainLabel (label : String) : String :=
  if starredLabels.contains label then String.ofList label.toList.dropLast else label

/-- The text and the label of a node and then those of its children. Nodes that differ only in a star
or deeper down are not told apart. -/
def digest (t : Tree) : Asked String := do
  let (label, text) ← t.heading
  let inscriptions ← t.children.mapM fun child => do
    let (label, text) ← child.heading
    return text ++ label
  return text ++ plainLabel label ++ String.join inscriptions

end ProgramQuery.Tree

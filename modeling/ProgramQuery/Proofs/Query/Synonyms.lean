import ProgramQuery.Tree.Basic

/-! The synonyms in the tree of a query. -/

namespace ProgramQuery.Tree

mutual

def decEq : (t u : Tree) → Decidable (t = u)
  | .missing, .missing => isTrue rfl
  | .missing, .node _ _ _ _ => isFalse nofun
  | .node _ _ _ _, .missing => isFalse nofun
  | .node label text line children, .node label' text' line' children' =>
    match decEqIn children children' with
    | isFalse differ => isFalse fun same => differ (Tree.node.inj same).2.2.2
    | isTrue same =>
      decidable_of_iff (label = label' ∧ text = text' ∧ line = line') <| by
        rw [Tree.node.injEq]
        exact ⟨fun ⟨first, second, third⟩ => ⟨first, second, third, same⟩,
          fun ⟨first, second, third, _⟩ => ⟨first, second, third⟩⟩

def decEqIn : (ts us : List Tree) → Decidable (ts = us)
  | [], [] => isTrue rfl
  | [], _ :: _ => isFalse nofun
  | _ :: _, [] => isFalse nofun
  | t :: ts, u :: us =>
    match decEq t u, decEqIn ts us with
    | isTrue same, isTrue same' => isTrue (by rw [same, same'])
    | isFalse differ, _ => isFalse fun same => differ (List.cons.inj same).1
    | _, isFalse differ => isFalse fun same => differ (List.cons.inj same).2

end

instance : DecidableEq Tree :=
  decEq

def entityLabels : List String :=
  ["WHILE", "ASSIGN", "STMT", "VARIABLE", "CONSTANT", "PROCEDURE", "PROG_LINE", "CALL", "IF"]

/-- Whether a node stands for a synonym. One that was not declared has no type. -/
def isNamed (label text : String) : Bool :=
  (label == "" || entityLabels.contains label) && text != ""

mutual

def synonyms : Tree → List String
  | .missing => []
  | .node label text _ children =>
    (if isNamed label text then [text] else []) ++ synonymsIn children

def synonymsIn : List Tree → List String
  | [] => []
  | t :: rest => t.synonyms ++ synonymsIn rest

end

variable {ts : List Tree} {x : String}

theorem mem_synonymsIn : x ∈ synonymsIn ts ↔ ∃ t ∈ ts, x ∈ t.synonyms := by
  induction ts with
  | nil => simp [synonymsIn]
  | cons t rest ih => simp [synonymsIn, ih]

end ProgramQuery.Tree

import ProgramQuery.Relation.Modes
import ProgramQuery.Relation.Name
import ProgramQuery.Text.Case

/-! Exercises: queries about a program, one relation at a time, whose answers are to be filled in. -/

namespace ProgramQuery

open Text

structure Exercise where
  declaration : String
  query : String
  deriving DecidableEq, Repr

/-- The lines of an exercise; the answer is left open. -/
def Exercise.lines (e : Exercise) : List String :=
  [e.declaration, e.query, "none"]

namespace Exercise

/-- The words that declare a first argument of a relation. There are no exercises on the starred forms
of Modifies and Uses. -/
def argumentWords? : RelationName → Option (List String)
  | .next => some ["prog_line"]
  | .nextStar => some ["prog_line"]
  | .follows => some ["stmt", "while", "if", "call", "assign"]
  | .followsStar => some ["stmt", "while", "if", "call", "assign"]
  | .parent => some ["stmt", "while", "if", "call", "assign"]
  | .parentStar => some ["stmt", "while", "if", "call", "assign"]
  | .modifies => some ["stmt", "while", "if", "call", "assign", "procedure"]
  | .uses => some ["stmt", "while", "if", "call", "assign", "procedure"]
  | .calls => some ["procedure"]
  | .callsStar => some ["procedure"]
  | .modifiesStar => none
  | .usesStar => none

def everyNth {α : Type} (n : Nat) (xs : List α) : List α :=
  (xs.zipIdx.filter fun entry => entry.2 % n == 0).map (·.1)

/-- The first six in a hundred. -/
def sample {α : Type} (xs : List α) : List α :=
  xs.take (6 * xs.length / 100)

def sampledLines (kb : KnowledgeBase) : List String :=
  (sample (everyNth 5 kb.statementLines)).map fun n => showInt n

/-- A query for a synonym with one condition, and a comparison if one is given. -/
def asking (selected relation first second comparison : String) : String :=
  "Select " ++ selected ++ " such that " ++ relation ++ "(" ++ first ++ second ++ ")" ++ comparison

def declaring (words : List (String × String)) : String :=
  " ".intercalate (words.map fun (word, synonym) => word ++ " " ++ synonym ++ ";")

def inQuotes (s : String) : String :=
  "\"" ++ s ++ "\""

variable (kb : KnowledgeBase) (relation word : String)

def effectExercises : List Exercise :=
  let both := declaring [(word, "a"), ("variable", "a1")]
  let pair (selected comparison : String) : Exercise :=
    ⟨both, asking selected relation "a" ",a1" comparison⟩
  let compared (comparison : String) : List Exercise :=
    [pair "a" comparison, pair "a1" comparison, pair "BOOLEAN" comparison]
  let onVariable (name : String) : List Exercise :=
    ⟨declaring [(word, "a")], asking "a" relation "a" ("," ++ inQuotes name) ""⟩
      :: compared (" with a1.varName=" ++ inQuotes name)
  let onPlace (place comparison : String) : List Exercise :=
    ⟨declaring [("variable", "a1")], asking "a1" relation place ", a1" ""⟩ :: compared comparison
  compared "" ++ (sample kb.variableNames).flatMap onVariable
    ++ (if word = "procedure" then
          (sample kb.procedureNames).flatMap fun p =>
            onPlace (inQuotes p) (" with a.procName=" ++ inQuotes p)
        else
          (sampledLines kb).flatMap fun line => onPlace line (" with a.stmt#=" ++ line))

def pairExercises (word' : String) : List Exercise :=
  let both := declaring [(word, "a"), (word', "a1")]
  let pair (selected comparison : String) : Exercise :=
    ⟨both, asking selected relation "a" ",a1" comparison⟩
  let fixed (first second : String) : Exercise :=
    ⟨declaring [(word, "a1")], asking "a1" relation first second ""⟩
  let onProcedure (p : String) : List Exercise :=
    [fixed (inQuotes p) ", a1",
      pair "a" (" with a.procName=" ++ inQuotes p),
      pair "a1" (" with a.procName=" ++ inQuotes p),
      pair "BOOLEAN" (" with a1.procName=" ++ inQuotes p)]
  let onLine (suffix : String) (n : Int) : List Exercise :=
    let line := showInt n
    let following := showInt (n + 1)
    [fixed line ", a1",
      fixed line (", " ++ following),
      pair "a" (" with a" ++ suffix ++ "=" ++ line),
      pair "a1" (" with a" ++ suffix ++ "=" ++ line),
      pair "a1" (" with a" ++ suffix ++ "=" ++ line ++ " and a1" ++ suffix ++ "=" ++ following),
      pair "BOOLEAN" (" with a1" ++ suffix ++ "=" ++ line)]
  let lines := sample (everyNth 5 kb.statementLines)
  [⟨declaring [(word', "a1")], asking "BOOLEAN" relation "_" ",a1" ""⟩,
      pair "a1" "", pair "a" "", pair "BOOLEAN" ""]
    ++ (if word = "procedure" then (sample kb.procedureNames).flatMap onProcedure
        else if word = "prog_line" then lines.flatMap (onLine "")
        else lines.flatMap (onLine ".stmt#"))

/-- The exercise with which those on one kind of first argument end. -/
def closing : Exercise :=
  ⟨declaring [(word, "a")], asking "a" relation "a" ",_" ""⟩

end Exercise

/-- All exercises on a relation. Those on Uses end with one on any user of a variable. -/
def RelationName.exercises? (kb : KnowledgeBase) (r : RelationName) : Option (List Exercise) := do
  let words ← Exercise.argumentWords? r
  let relation := r.spelling
  let body (word : String) : List Exercise :=
    if r = .modifies ∨ r = .uses then Exercise.effectExercises kb relation word
    else (Exercise.everyNth 2 words).flatMap (Exercise.pairExercises kb relation word)
  let main := words.flatMap fun word => body word ++ [Exercise.closing relation word]
  let last : List Exercise :=
    if r = .uses then
      [⟨Exercise.declaring [("variable", "a")], Exercise.asking "a" relation "_" ",a" ""⟩]
    else []
  return main ++ last

namespace Exercise

def relations : List RelationName :=
  [.modifies, .uses, .follows, .followsStar, .parent, .parentStar, .nextStar, .next, .calls,
    .callsStar]

def allExercises (kb : KnowledgeBase) : List Exercise :=
  relations.flatMap fun r => (r.exercises? kb).getD []

/-- The name of the file for the exercises on a relation of a given name: in small letters, and a star
becomes `_T`. -/
def fileNameFor (name : String) : String :=
  String.ofList ((lower name).toList.flatMap fun c => if c == '*' then ['_', 'T'] else [c]) ++ ".txt"

def fileName (r : RelationName) : String :=
  fileNameFor r.spelling

def allFileName : String := "all.txt"

def fileLines (es : List Exercise) : List String :=
  es.flatMap Exercise.lines ++ [""]

end Exercise

end ProgramQuery

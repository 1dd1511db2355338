import ProgramQuery.Exercise.Basic
import ProgramQuery.Exercise.Path

/-! The menu by which exercises are written. -/

namespace ProgramQuery.Exercise

open Text

inductive MenuStop where
  /-- A line was needed and there was none. -/
  | endOfInput
  /-- The choice was no number. -/
  | badChoice
  /-- There are no tables at the path given. -/
  | noTables (fault : PathFault)
  deriving DecidableEq, Repr

/-- What became of a dialogue: the lines printed, the files written, why it ended if not by choice,
and the lines not read. -/
structure Transcript where
  printed : List String
  files : Keyed (List Exercise)
  stop : Option MenuStop
  unread : List String

def menuLines : List String :=
  ["1. Generate relation", "2. Generate multi relation", "3. Generate \"with\"",
    "4. Generate \"pattern\"", "5. Generate all", "6. Exit", "", "Choose number: "]

def namedRelation? (line : String) : Option RelationName :=
  relations.find? (·.spelling == line)

/-- Why exercises that are asked for by name are not written. -/
inductive RequestFault where
  /-- No file can be written under the name. -/
  | noPlace (fault : PathFault)
  /-- There are no exercises on a relation of that name. -/
  | unknown
  deriving DecidableEq, Repr

/-- The file of the exercises on a relation given by its name. The file is opened before the exercises
are looked for. -/
def request (kb : KnowledgeBase) (name : String) : Except RequestFault (String × List Exercise) :=
  match resolveAround ("/".intercalate (exerciseDirectory ++ [fileNameFor name])) with
  | .error fault => .error (.noPlace fault)
  | .ok _ =>
    match namedRelation? name with
    | some r => .ok (fileName r, (r.exercises? kb).getD [])
    | none => .error .unknown

def dialogue (kb : KnowledgeBase) : List String → List String → Keyed (List Exercise) → Transcript
  | [], printed, files => ⟨printed ++ menuLines, files, some .endOfInput, []⟩
  | choice :: rest, printed, files =>
    let printed := printed ++ menuLines
    match readInt? choice with
    | none => ⟨printed, files, some .badChoice, rest⟩
    | some 1 =>
      let printed := printed ++ ["Name relation: "]
      match rest with
      | [] => ⟨printed, files, some .endOfInput, []⟩
      | line :: rest =>
        match namedRelation? line with
        | none => dialogue kb rest (printed ++ ["Incorrect relation"]) files
        | some r =>
          dialogue kb rest (printed ++ ["Finish"])
            (files.put (fileName r) ((r.exercises? kb).getD []))
    | some 5 =>
      dialogue kb rest (printed ++ ["Finish"]) (files.put allFileName (allExercises kb))
    | some 6 => ⟨printed ++ ["Bye ;*"], files, none, rest⟩
    | some _ => dialogue kb rest printed files

def findTables (path : String) : Except PathFault Unit := do
  unless (← resolve path) = tablesDirectory do throw .nothingThere

def menu (kb : KnowledgeBase) (input : List String) : Transcript :=
  let printed := ["Path to the tables: "]
  match input with
  | [] => ⟨printed, [], some .endOfInput, []⟩
  | path :: rest =>
    match findTables path with
    | .ok _ => dialogue kb rest printed []
    | .error fault => ⟨printed, [], some (.noTables fault), rest⟩

end ProgramQuery.Exercise

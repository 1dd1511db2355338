import ProgramQuery.Exercise.Menu
import ProgramQuery.Session

/-! The command line. With a program file it answers queries, two input lines each; with the word
`exercises` before the file it offers the menu of exercises. -/

namespace ProgramQuery.Main

def nextLine? (input : IO.FS.Stream) : IO (Option String) := do
  let line ← input.getLine
  if line.isEmpty then return none
  let chars := line.toList
  return some (String.ofList (if chars.getLast? == some '\n' then chars.dropLast else chars))

/-- Answers queries until the input ends. -/
partial def converse (subject : Evaluation.Subject) (input output : IO.FS.Stream) : IO Unit := do
  let some first ← nextLine? input | return
  let some second ← nextLine? input | return
  output.putStrLn (subject.reply (first ++ " " ++ second))
  output.flush
  converse subject input output

partial def remainingLines (input : IO.FS.Stream) : IO (List String) := do
  let some line ← nextLine? input | return []
  return line :: (← remainingLines input)

def writeExercises (name : String) (exercises : List Exercise) : IO Unit := do
  let directory := "/".intercalate Exercise.exerciseDirectory
  IO.FS.createDirAll directory
  IO.FS.writeFile (directory ++ "/" ++ name)
    ("\n".intercalate (Exercise.fileLines exercises))

def run (args : List String) (input output error : IO.FS.Stream) : IO UInt32 := do
  let withProgram (file : String) (act : Evaluation.Subject → IO Unit) : IO UInt32 := do
    match Evaluation.Subject.ofFile file (← IO.FS.readFile file) with
    | .ok subject =>
      act subject
      return 0
    | .error failure =>
      error.putStrLn failure.message
      return 1
  match args with
  | [file] =>
    withProgram file fun subject => do
      output.putStrLn readyText
      output.flush
      converse subject input output
  | ["exercises", file] =>
    withProgram file fun subject => do
      let transcript := Exercise.menu subject.knowledge (← remainingLines input)
      transcript.printed.forM output.putStrLn
      transcript.files.forM fun (name, exercises) => writeExercises name exercises
  | _ =>
    error.putStrLn "expected a program file"
    return 1

end ProgramQuery.Main

def main (args : List String) : IO UInt32 := do
  ProgramQuery.Main.run args (← IO.getStdin) (← IO.getStdout) (← IO.getStderr)

import ProgramQuery.Evaluation.Query
import ProgramQuery.Program.Outline
import ProgramQuery.Query.Parser.Select

/-! Asking queries about a program. -/

namespace ProgramQuery

/-- A program text with all its line breaks written as line feeds. -/
def unifyBreaks : List Char → List Char
  | '\r' :: '\n' :: rest => '\n' :: unifyBreaks rest
  | '\r' :: rest => '\n' :: unifyBreaks rest
  | c :: rest => c :: unifyBreaks rest
  | [] => []

/-- The subject of an analysis, with its file's name at the top of the tree. -/
def Analysis.subject (a : Analysis) (file : String) [Evaluation.Order] : Evaluation.Subject :=
  ⟨a.program.toTree file, a.knowledge⟩

def KnowledgeBase.scope (kb : KnowledgeBase) : Query.Scope :=
  ⟨kb.procedureNames, kb.variableNames, kb.statements.length⟩

structure Outcome where
  tree : Tree
  /-- Nothing if the evaluation found that there is no answer. -/
  response : Option String
  sheet : Sheet

namespace Outcome

def text (o : Outcome) : String :=
  match o.response with
  | some text => text
  | none => if o.sheet.selected.1 = Sheet.truthRow then "false" else "none"

/-- The query tree is kept only of a query that has an answer. -/
def savedTree (o : Outcome) : Option Tree :=
  o.response.map fun _ => o.tree

end Outcome

def Evaluation.Subject.evaluate (subject : Evaluation.Subject) (text : String)
    : Except Query.Failure Outcome := do
  let reading ← Query.Reading.ofText subject.knowledge.scope text
  match Evaluation.query reading.tree subject .start with
  | .ok response s => return { tree := reading.tree, response := some response, sheet := s.sheet }
  | .error _ s => return { tree := reading.tree, response := none, sheet := s.sheet }

/-- The reply to a query, which for one that could not be read says why. -/
def Evaluation.Subject.reply (subject : Evaluation.Subject) (text : String) : String :=
  match subject.evaluate text with
  | .ok outcome => outcome.text
  | .error failure => failure.message

def Evaluation.Subject.ofFile (file contents : String) : Except Program.Failure Evaluation.Subject :=
  return (← Analysis.ofText (String.ofList (unifyBreaks contents.toList))).subject file

/-- A dialogue takes two lines for each query, which are joined by a blank. A last line on its own is
not answered. -/
def Evaluation.Subject.dialogue (subject : Evaluation.Subject) : List String → List String
  | first :: second :: rest => subject.reply (first ++ " " ++ second) :: subject.dialogue rest
  | _ => []

def readyText : String := "Ready"

end ProgramQuery

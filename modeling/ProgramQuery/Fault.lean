/-! What can go wrong while a question is answered. -/

namespace ProgramQuery

inductive Fault where
  /-- A text stands where a number is needed. -/
  | notANumber (text : String)
  /-- Something stands where a number or a record is needed and is neither that nor a text for it. -/
  | wrongKind
  /-- A list has no entry at the place asked for, or a node fewer parts than asked for. -/
  | noSuchPart
  /-- Something is asked of a node that is not there. -/
  | nothingThere
  /-- A name is looked up that nothing is recorded under. -/
  | unknownName (name : String)
  /-- A synonym can only be narrowed down to a set. -/
  | notASet
  /-- No value is left for a synonym, or a condition without synonyms is false. -/
  | nothingLeft
  /-- A computation used up the steps it was given. -/
  | exhausted
  deriving DecidableEq, Repr

/-- The answer to a question, unless it could not be answered. -/
abbrev Asked := Except Fault

end ProgramQuery

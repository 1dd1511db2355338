import ProgramQuery.Fault
import ProgramQuery.Keyed
import ProgramQuery.Text.Numeral
import ProgramQuery.Text.Quoted

/-! Stored records. What is read back from a store may lack fields, so each field is looked for when
it is needed. -/

namespace ProgramQuery

open Text

inductive Datum where
  | missing
  | flag (b : Bool)
  | number (n : Int)
  | text (s : String)
  | list (items : List Datum)
  | record (fields : List (String × Datum))
  deriving Repr, BEq, Inhabited

namespace Datum

def field (d : Datum) (name : String) : Asked Datum :=
  match d with
  | .record fields =>
    match Keyed.get? fields name with
    | some value => .ok value
    | none => .error (.unknownName name)
  | _ => .error .wrongKind

/-- The whole number that a datum is; a flag counts as one or zero. -/
def whole : Datum → Asked Int
  | .number n => .ok n
  | .flag b => .ok (if b then 1 else 0)
  | _ => .error .wrongKind

/-- A datum as a key. Only a text is ever found, and what has parts of its own cannot be looked for. -/
def key : Datum → Asked (Option String)
  | .text s => .ok (some s)
  | .list _ => .error .wrongKind
  | .record _ => .error .wrongKind
  | _ => .ok none

def truth : Datum → Bool
  | .missing => false
  | .flag b => b
  | .number n => n != 0
  | .text s => s != ""
  | .list items => !items.isEmpty
  | .record fields => !fields.isEmpty

mutual

/-- A datum on one line, with records in braces and lists in brackets. -/
def display : Datum → String
  | .missing => "None"
  | .flag true => "True"
  | .flag false => "False"
  | .number n => showInt n
  | .text s => quoted s
  | .list items => "[" ++ ", ".intercalate (displayItems items) ++ "]"
  | .record fields => "\x7b" ++ ", ".intercalate (displayFields fields) ++ "\x7d"

def displayItems : List Datum → List String
  | [] => []
  | d :: rest => d.display :: displayItems rest

def displayFields : List (String × Datum) → List String
  | [] => []
  | (name, d) :: rest => (quoted name ++ ": " ++ d.display) :: displayFields rest

end

/-- A text as it is, and anything else on one line. -/
def plain : Datum → String
  | .text s => s
  | d => d.display

end Datum

end ProgramQuery

import ProgramQuery.Position
import ProgramQuery.Table.Datum

/-! Tables that are lists of records: variables, procedures and statements. A record without the field
asked for spoils the answer, but only if it is looked at. -/

namespace ProgramQuery

structure Listing where
  records : List Datum
  deriving Repr

namespace Listing

def size (l : Listing) : Nat :=
  l.records.length

def all (l : Listing) (name : String) : Asked (List Datum) :=
  l.records.mapM (·.field name)

/-- The first record with a given value in a field. -/
def find? (l : Listing) (name : String) (value : Datum) : Asked (Option Datum) :=
  l.records.findM? fun d => return (← d.field name) == value

def has (l : Listing) (name : String) (value : Datum) : Asked Bool :=
  return (← l.find? name value).isSome

/-- What is recorded besides the name of a record. -/
def info (d : Datum) : Asked Datum :=
  d.field "other_info"

/-- What else is recorded in the first record with a given value in a field. -/
def infoOf? (l : Listing) (name : String) (value : Datum) : Asked (Option Datum) := do
  match ← l.find? name value with
  | some d => return some (← info d)
  | none => return none

def variableNames (l : Listing) : Asked (List Datum) :=
  l.all "variable_name"

def hasVariable (l : Listing) (name : Datum) : Asked Bool :=
  l.has "variable_name" name

def procedureNames (l : Listing) : Asked (List Datum) :=
  l.all "proc_name"

def hasProcedure (l : Listing) (name : Datum) : Asked Bool :=
  l.has "proc_name" name

def procedureInfo? (l : Listing) (name : Datum) : Asked (Option Datum) :=
  l.infoOf? "proc_name" name

/-- What is recorded about the statement with a number, counted from one. Numbers below one count from
the end. -/
def statementInfo (l : Listing) (line : Datum) : Asked Datum := do
  let n ← line.whole
  match (position? l.size (n - 1)).bind fun place => l.records[place]? with
  | some d => info d
  | none => .error .noSuchPart

def statementLines (l : Listing) : List Int :=
  (List.range l.size).map fun (i : Nat) => (i : Int) + 1

def hasStatement (l : Listing) (line : Datum) : Asked Bool := do
  let n ← line.whole
  return 0 < n && n ≤ l.size

/-- The recorded numbers of the statements of a kind. -/
def linesOfKind (l : Listing) (kind : Datum) : Asked (List Datum) := do
  let found ← l.records.filterM fun d => return (← (← info d).field "name") == kind
  found.mapM (·.field "statement_line")

/-- The recorded numbers of the statements of a kind with a given value. -/
def linesOfKindAndValue (l : Listing) (kind value : Datum) : Asked (List Datum) := do
  let found ← l.records.filterM fun d => do
    let recorded ← info d
    if (← recorded.field "name") == kind then return (← recorded.field "value") == value
    else return false
  found.mapM (·.field "statement_line")

def display (l : Listing) : String :=
  (Datum.list l.records).display

end Listing

end ProgramQuery

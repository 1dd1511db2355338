import ProgramQuery.Evaluation.Condition

/-! Following up a condition. When the values left to a synonym change, the conditions recorded for it
are worked out again with the new values, and so are those of the synonyms that this changes. -/

namespace ProgramQuery.Evaluation

open Text ProgramQuery.Relation

/-- The relation and the two arguments of a condition, read off its title. -/
def conditionParts (condition : String) : EvalM (String × String × String) :=
  match splitAt '_' condition with
  | relation :: first :: second :: _ => return (relation, first, second)
  | _ => throw .noSuchPart

/-- The columns that hold no condition of a such that clause. -/
def otherColumns : List String :=
  [Sheet.typeColumn, Sheet.finalColumn, "PATTERN", "WITH"]

/-- Whether a column holds a condition between two synonyms. -/
def isCondition (column : String) : Bool :=
  !otherColumns.contains column && !occursIn Sheet.fixedRow column

def byType (synonym : String) : EvalM Argument :=
  return .synonym synonym (← ask ((← sheet).cell synonym Sheet.typeColumn))

def byValues (synonym : String) : EvalM Argument :=
  return .synonym synonym (← ask ((← sheet).cell synonym Sheet.finalColumn))

def valuesOf (synonym : String) : EvalM (List Entity) := do
  match ← ask ((← sheet).cell synonym Sheet.finalColumn) with
  | .set values => return values.members
  | _ => throw .notASet

def relationOf (condition : String) : String :=
  (splitAt '_' condition).headD ""

/-- Narrows the two synonyms of a condition to the pairs for which the relation of another condition
holds too. -/
def confirmBoth (condition other : String) : EvalM Unit := do
  let (relation, a, b) ← conditionParts condition
  let kb := (← read).knowledge
  let xs ← valuesOf a
  let ys ← valuesOf b
  let holds (title : String) (x y : Entity) : Asked Bool := do
    (← modes kb title).memberMember x.byText y
  let (lefts, rights) ← ask (related xs ys fun x y => do
    if ← holds relation x y then holds (relationOf other) x y else return false)
  narrowTo condition a lefts
  narrowTo other a lefts
  narrowTo other b rights
  narrowTo condition b rights

/-- Works out again a condition recorded for the first argument `a` of the condition just done. -/
def followFirst (again : String → Argument → Argument → EvalM Unit)
    (done a : String) (second : Argument) (condition : String)
    : EvalM Unit := do
  let (relation, x, y) ← conditionParts condition
  if y = a then again relation (← byType x) (← byValues y)
  else if y = (← second.head) then
    confirmBoth condition done
    again relation (← byValues x) (← byValues y)
  else again relation (← byValues x) (← byType y)

/-- Works out again a condition recorded for the second argument `b` of the condition just done. -/
def followSecond (again : String → Argument → Argument → EvalM Unit)
    (first : Argument) (b : String) (condition : String)
    : EvalM Unit := do
  let (relation, x, y) ← conditionParts condition
  if x = b then again relation (← byValues x) (← byType y)
  else if x = (← first.head) then again relation (← byValues x) (← byValues y)
  else again relation (← byType x) (← byValues y)

/-- Follows up the conditions recorded for a synonym, other than the one just done and those that are
being followed up already. -/
def followUp (done synonym : String) (follow : String → EvalM Unit) : EvalM Unit := do
  let s ← get
  let conditions := (s.sheet.columns synonym).filter fun column =>
    isCondition column && column != done && !s.pending.contains column
  unless conditions.isEmpty do
    modify fun s => { s with pending := done :: s.pending }
    conditions.forM follow
    modify fun s => { s with pending := s.pending.erase done }

/-- Works out a condition and follows it up. Each level follows up a further condition of the sheet,
so the fuel bounds the number of conditions. -/
def executeWithin : Nat → String → Argument → Argument → EvalM Unit
  | 0, _, _, _ => throw .exhausted
  | fuel + 1, relation, first, second => do
      let again := executeWithin fuel
      relate relation first second
      let done := conditionTitle relation first second
      match first with
      | .synonym a _ => followUp done a (followFirst again done a second)
      | .fixed _ => pure ()
      match second with
      | .synonym b _ => followUp done b (followSecond again first b)
      | .fixed _ => pure ()

def execute (relation : String) (first second : Argument) : EvalM Unit := do
  executeWithin ((← sheet).cells.allColumns.length + 2) relation first second

/-- Works out again each condition that allows more values than are left, in the order in which the set
of all titles comes out. -/
def settle : EvalM Unit := do
  for condition in ((← read).order.titles (← sheet).allColumns).filter isCondition do
    let (relation, a, b) ← conditionParts condition
    let s ← sheet
    let unchanged (synonym : String) : EvalM Bool := do
      let left ← ask (s.cell synonym Sheet.finalColumn)
      return left.same (← ask (s.cell synonym condition))
    let settled ← do
      if ← unchanged b then unchanged a else pure false
    unless settled do
      execute relation (← byValues a) (← byValues b)

end ProgramQuery.Evaluation

import ProgramQuery.Relation.LineTable

/-! Parent, between a statement and those directly inside it, and its closure. -/

namespace ProgramQuery.Relation

variable (kb : KnowledgeBase)

def parentOf? (line : Int) : Option Int :=
  (kb.parent.rowsAt line).head?

def hasParent (line : Entity) : Asked Bool := do
  return found (parentOf? kb (← numberOf line))

def hasChildren (line : Entity) : Asked Bool := do
  return !(kb.parent.columnsAt (← numberOf line)).isEmpty

namespace Parent

def holds (first second : Entity) : Asked Bool := do
  return kb.parent.markedAt (← numberOf first) (← numberOf second)

def children (first : Entity) (type : String) : Asked (List Entity) := do
  return lines (fitting kb type (kb.parent.columnsAt (← numberOf first)))

/-- The parent, if it fits the type of the open argument. -/
def fittingParent (type : String) (second : Entity) : Asked (List Entity) := do
  match parentOf? kb (← numberOf second) with
  | some n => return lines (fitting kb type [n])
  | none => return []

def sides (first second : String) : Asked (List Entity × List Entity) := do
  if first = anyStatement then
    let children ← kb.parent.columnNumbers
    if second = anyStatement then return (lines (← kb.parent.rowNumbers), lines children)
    let seconds := common (kb.linesOfKind second) children
    return (lines (seconds.filterMap (parentOf? kb)), lines seconds)
  else
    let firsts := common (kb.linesOfKind first) (← kb.parent.rowNumbers)
    let fit (n : Int) := fitting kb second (kb.parent.columnsAt n)
    let kept := if second = anyStatement then firsts else firsts.filter fun n => !(fit n).isEmpty
    return (lines kept, lines (kept.flatMap fit).eraseDups)

/-- The parent of any type is given even where there is none. -/
def modes : Modes where
  memberMember := holds kb
  memberOpen := children kb
  memberFixed first second :=
    if second = anything then hasChildren kb first else holds kb first second
  openMember type second := do
    if type = anyStatement then
      match parentOf? kb (← numberOf second) with
      | some n => return [.line n]
      | none => return [.missing]
    else fittingParent kb type second
  openOpen := sides kb
  openFixed type second := do
    if second = anything then
      let parents ← kb.parent.rowNumbers
      return lines (fitting kb type parents)
    else fittingParent kb type second
  fixedMember first second :=
    if first = anything then hasParent kb second else holds kb first second
  fixedOpen first type := do
    if first = anything then return lines (fitting kb type (← kb.parent.columnNumbers))
    else children kb first type
  fixedFixed first second :=
    if first = anything then
      if second = anything then kb.parent.inhabited else hasParent kb second
    else if second = anything then hasChildren kb first
    else holds kb first second

end Parent

namespace ParentStar

def allInside (line : Int) : List Int :=
  kb.parent.columnClosure line

def allAround (line : Int) : List Int :=
  ascent (parentOf? kb) (kb.parent.size + 1) line

def holds (first second : Entity) : Asked Bool := do
  let n ← numberOf second
  return (allInside kb (← numberOf first)).contains n

def inside (first : Entity) (type : String) : Asked (List Entity) := do
  let fit ← if type = anyStatement then kb.parent.columnNumbers else pure (kb.linesOfKind type)
  return lines (common (allInside kb (← numberOf first)) fit)

def around (type : String) (second : Entity) : Asked (List Entity) := do
  let fit ← if type = anyStatement then kb.parent.rowNumbers else pure (kb.linesOfKind type)
  return lines (common (allAround kb (← numberOf second)) fit)

def sides (first second : String) : Asked (List Entity × List Entity) := do
  if first = anyStatement then
    if second = anyStatement then
      return (lines (← kb.parent.rowNumbers), lines (← kb.parent.columnNumbers))
    let seconds := (kb.linesOfKind second).filter fun n => !(allAround kb n).isEmpty
    return (lines (seconds.flatMap (allAround kb)).eraseDups, lines seconds)
  else
    let fit (n : Int) := fitting kb second (allInside kb n)
    let firsts := (kb.linesOfKind first).filter fun n => !(fit n).isEmpty
    return (lines firsts, lines (firsts.flatMap fit).eraseDups)

def modes : Modes where
  memberMember := holds kb
  memberOpen := inside kb
  memberFixed first second :=
    if second = anything then hasChildren kb first else holds kb first second
  openMember := around kb
  openOpen := sides kb
  openFixed type second := do
    if second = anything then return lines (fitting kb type (← kb.parent.rowNumbers))
    else around kb type second
  fixedMember first second :=
    if first = anything then hasParent kb second else holds kb first second
  fixedOpen first type := do
    if first = anything then return lines (fitting kb type (← kb.parent.columnNumbers))
    else inside kb first type
  fixedFixed first second :=
    if first = anything then
      if second = anything then kb.parent.inhabited else hasParent kb second
    else if second = anything then hasChildren kb first
    else holds kb first second

end ParentStar

end ProgramQuery.Relation

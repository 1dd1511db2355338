import ProgramQuery.Relation.LineTable

/-! Follows, between neighbours in a statement list, and its closure. -/

namespace ProgramQuery.Relation

variable (kb : KnowledgeBase)

/-- The one line found, if it fits the type of the open argument. -/
def fittingLine (type : String) (line : Option Int) : List Entity :=
  match line with
  | some n => if type = anyStatement ∨ (kb.linesOfKind type).contains n then [.line n] else []
  | none => []

namespace Follows

def holds (first second : Entity) : Asked Bool := do
  return kb.follows.markedAt (← numberOf first) (← numberOf second)

def after (first : Entity) (type : String) : Asked (List Entity) := do
  return fittingLine kb type (kb.follows.firstColumn? (← numberOf first))

def before (type : String) (second : Entity) : Asked (List Entity) := do
  return fittingLine kb type (kb.follows.firstRow? (← numberOf second))

def isFollowed (line : Entity) : Asked Bool := do
  return found (kb.follows.firstColumn? (← numberOf line))

/-- All pairs, as the statements that occur on either side. -/
def sides (first second : String) : Asked (List Entity × List Entity) := do
  if first = anyStatement then
    let seconds ← kb.follows.columnNumbers
    if second = anyStatement then return (lines (← kb.follows.rowNumbers), lines seconds)
    let seconds := common (kb.linesOfKind second) seconds
    return (lines (seconds.filterMap kb.follows.firstRow?), lines seconds)
  else
    let firsts := common (kb.linesOfKind first) (← kb.follows.rowNumbers)
    if second = anyStatement then
      return (lines firsts, lines (firsts.filterMap kb.follows.firstColumn?))
    let seconds := common (kb.linesOfKind second) (← kb.follows.columnNumbers)
    return (lines (firsts.filter fun n => (kb.follows.firstColumn? n).any seconds.contains),
      lines (seconds.filter fun n => (kb.follows.firstRow? n).any firsts.contains))

/-- An anonymous statement on the left is looked for after the one on the right. -/
def modes : Modes where
  memberMember := holds kb
  memberOpen := after kb
  memberFixed first second :=
    if second = anything then isFollowed kb first else holds kb first second
  openMember := before kb
  openOpen := sides kb
  openFixed type second := do
    if second = anything then return lines (fitting kb type (← kb.follows.rowNumbers))
    else before kb type second
  fixedMember first second :=
    if first = anything then isFollowed kb second else holds kb first second
  fixedOpen first type := do
    if first = anything then
      if type = anyStatement then return lines (← kb.follows.columnNumbers)
      else return lines ((kb.linesOfKind type).filter fun n => (kb.follows.firstRow? n).isSome)
    else after kb first type
  fixedFixed first second :=
    if first = anything then
      if second = anything then kb.follows.inhabited else isFollowed kb second
    else if second = anything then isFollowed kb first
    else holds kb first second

end Follows

namespace FollowsStar

def allAfter (line : Int) : List Int :=
  ascent kb.follows.firstColumn? (kb.follows.size + 1) line

def allBefore (line : Int) : List Int :=
  ascent kb.follows.firstRow? (kb.follows.size + 1) line

def holds (first second : Entity) : Asked Bool := do
  let n ← numberOf second
  return (allAfter kb (← numberOf first)).contains n

def after (first : Entity) (type : String) : Asked (List Entity) := do
  let fit ← if type = anyStatement then kb.follows.columnNumbers else pure (kb.linesOfKind type)
  return lines (common (allAfter kb (← numberOf first)) fit)

def before (type : String) (second : Entity) : Asked (List Entity) := do
  let fit ← if type = anyStatement then kb.follows.rowNumbers else pure (kb.linesOfKind type)
  return lines (common (allBefore kb (← numberOf second)) fit)

def isPreceded (line : Entity) : Asked Bool := do
  return found (kb.follows.firstRow? (← numberOf line))

def sides (first second : String) : Asked (List Entity × List Entity) := do
  if first = anyStatement then
    if second = anyStatement then
      return (lines (← kb.follows.rowNumbers), lines (← kb.follows.columnNumbers))
    let seconds := (kb.linesOfKind second).filter fun n => !(allBefore kb n).isEmpty
    return (lines (seconds.flatMap (allBefore kb)).eraseDups, lines seconds)
  else
    let fit (n : Int) := fitting kb second (allAfter kb n)
    let firsts := (kb.linesOfKind first).filter fun n => !(fit n).isEmpty
    return (lines firsts, lines (firsts.flatMap fit).eraseDups)

def modes : Modes where
  memberMember := holds kb
  memberOpen := after kb
  memberFixed first second :=
    if second = anything then Follows.isFollowed kb first else holds kb first second
  openMember := before kb
  openOpen := sides kb
  openFixed type second := do
    if second = anything then return lines (fitting kb type (← kb.follows.rowNumbers))
    else before kb type second
  fixedMember first second :=
    if first = anything then isPreceded kb second else holds kb first second
  fixedOpen first type := do
    if first = anything then return lines (fitting kb type (← kb.follows.columnNumbers))
    else after kb first type
  fixedFixed first second :=
    if first = anything then
      if second = anything then kb.follows.inhabited else isPreceded kb second
    else if second = anything then Follows.isFollowed kb first
    else holds kb first second

end FollowsStar

end ProgramQuery.Relation

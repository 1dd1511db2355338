import ProgramQuery.Relation.LineTable

/-! Next, between a statement and one that control can pass to, and its closure. The types of open
arguments play no part. -/

namespace ProgramQuery.Relation

variable (kb : KnowledgeBase)

def allSuccessors : Asked (List Int) :=
  kb.next.rowNumbers

def allPredecessors : Asked (List Int) :=
  kb.next.columnNumbers

def someStep : Asked Bool := do
  if (← allPredecessors kb).isEmpty then return false
  return !(← allSuccessors kb).isEmpty

namespace Next

def successors (line : Int) : List Int :=
  kb.next.rowsAt line

def predecessors (line : Int) : List Int :=
  kb.next.columnsAt line

def holds (first second : Entity) : Asked Bool := do
  let n ← numberOf first
  return kb.next.markedAt (← numberOf second) n

end Next

namespace NextStar

def successors (line : Int) : List Int :=
  kb.next.rowClosure line

def predecessors (line : Int) : List Int :=
  kb.next.columnClosure line

def holds (first second : Entity) : Asked Bool := do
  let n ← numberOf second
  return (predecessors kb n).contains (← numberOf first)

/-- Whether a thing is met on the way from a line. -/
def meets (step : Int → List Int) (line checked : Entity) : Asked Bool := do
  let n ← numberOf line
  match meets? step (fun n => .line n == checked) kb.next.turns (step n) [] with
  | some met => return met
  | none => .error .exhausted

def isAfter (line checked : Entity) : Asked Bool :=
  meets kb kb.next.rowsAt line checked

def isBefore (line checked : Entity) : Asked Bool :=
  meets kb kb.next.columnsAt line checked

end NextStar

/-- The modes of a step relation, given what comes after a line, what comes before it and when two
lines are related. -/
def stepModes (successors predecessors : Int → List Int) (holds : Entity → Entity → Asked Bool)
    : Modes where
  memberMember := holds
  memberOpen first _ := return lines (successors (← numberOf first))
  memberFixed first second := do
    if second = anything then return !(successors (← numberOf first)).isEmpty
    else holds first second
  openMember _ second := return lines (predecessors (← numberOf second))
  openOpen _ _ := return (lines (← allPredecessors kb), lines (← allSuccessors kb))
  openFixed _ second := do
    if second = anything then return lines (← allPredecessors kb)
    else return lines (predecessors (← numberOf second))
  fixedMember first second := do
    if first = anything then return !(predecessors (← numberOf second)).isEmpty
    else holds first second
  fixedOpen first _ := do
    if first = anything then return lines (← allSuccessors kb)
    else return lines (successors (← numberOf first))
  fixedFixed first second := do
    if first = anything then
      if second = anything then someStep kb
      else return !(predecessors (← numberOf second)).isEmpty
    else if second = anything then return !(successors (← numberOf first)).isEmpty
    else holds first second

def Next.modes : Modes :=
  stepModes kb (Next.successors kb) (Next.predecessors kb) (Next.holds kb)

def NextStar.modes : Modes :=
  stepModes kb (NextStar.successors kb) (NextStar.predecessors kb) (NextStar.holds kb)

end ProgramQuery.Relation

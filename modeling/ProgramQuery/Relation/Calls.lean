import ProgramQuery.Relation.LineTable

/-! Calls, between a procedure and those it calls, and its closure. -/

namespace ProgramQuery.Relation

variable (kb : KnowledgeBase)

/-- What a table holds of a thing, if it has a name; only names are looked up. -/
def byName {α : Type} (found : String → List α) : Entity → List α
  | .name s => found s
  | _ => []

namespace Calls

def holds (caller callee : Entity) : Bool :=
  match caller, callee with
  | .name p, .name q => kb.calls.marked p q
  | _, _ => false

def callees (caller : Entity) : List String :=
  byName kb.calls.columnsOf caller

def callers (callee : Entity) : List String :=
  byName kb.calls.rowsWith callee

end Calls

namespace CallsStar

/-- What is reached from a name by one or more steps. Calls that never end are followed no further than
this depth, where a name is found to lead nowhere. -/
def reachedUpTo (step : String → List String) : Nat → String → List String
  | 0, _ => []
  | depth + 1, name =>
    let direct := step name
    (direct ++ direct.flatMap (reachedUpTo step depth)).eraseDups

/-- Whether calls lead from one procedure to another. A procedure is not related to itself, even if its
calls lead back to it. -/
def leadsUpTo : Nat → Entity → Entity → Bool
  | 0, _, _ => false
  | depth + 1, caller, callee =>
    caller != callee && (names (Calls.callees kb caller)).any fun next =>
      next == callee || leadsUpTo depth next callee

def calleesUpTo (depth : Nat) (caller : Entity) : List String :=
  byName (reachedUpTo kb.calls.columnsOf depth) caller

def callersUpTo (depth : Nat) (callee : Entity) : List String :=
  byName (reachedUpTo kb.calls.rowsWith depth) callee

/-- A chain of calls that visits no row twice is at most as long as the table. -/
def depth : Nat :=
  kb.calls.size + 1

def callees : Entity → List String :=
  calleesUpTo kb (depth kb)

def callers : Entity → List String :=
  callersUpTo kb (depth kb)

def holds : Entity → Entity → Bool :=
  leadsUpTo kb (depth kb)

end CallsStar

/-- The modes of a relation between procedures, given what is called, what calls and when two
procedures are related. -/
def callModes (callees callers : Entity → List String) (holds : Entity → Entity → Bool)
    : Modes where
  memberMember first second := return holds first second
  memberOpen first _ := return names (callees first)
  memberFixed first second :=
    return if second = anything then !(callees first).isEmpty else holds first second
  openMember _ second := return names (callers second)
  openOpen _ _ := return (names kb.calls.rowNames, names kb.calls.allColumns)
  openFixed _ second :=
    return names (if second = anything then kb.calls.rowNames else callers second)
  fixedMember first second :=
    return if first = anything then !(callers second).isEmpty else holds first second
  fixedOpen first _ :=
    return names (if first = anything then kb.calls.allColumns else callees first)
  fixedFixed first second :=
    return if first = anything then
      if second = anything then !kb.calls.rowNames.isEmpty && !kb.calls.allColumns.isEmpty
      else !(callers second).isEmpty
    else if second = anything then !(callees first).isEmpty
    else holds first second

def Calls.modes : Modes :=
  callModes kb (Calls.callees kb) (Calls.callers kb) (Calls.holds kb)

def CallsStar.modes : Modes :=
  callModes kb (CallsStar.callees kb) (CallsStar.callers kb) (CallsStar.holds kb)

end ProgramQuery.Relation

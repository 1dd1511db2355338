import ProgramQuery.Evaluation.Propagation
import ProgramQuery.Links

/-! Conditions whose synonyms form a cycle. Narrowing synonyms one by one is not enough for them, so
all combinations of the values left are tried. -/

namespace ProgramQuery.Evaluation

open ProgramQuery.Relation

/-- The two synonyms of a condition, unless one of its arguments is fixed. -/
def linked? (condition : Tree) : Asked (Option (String × String)) := do
  let first ← condition.part 0
  if Argument.isFixedKind (← first.label) then return none
  let second ← condition.part 1
  if Argument.isFixedKind (← second.label) then return none
  return some (← first.text, ← second.text)

/-- The graph with the synonyms as vertices and the conditions as edges. -/
def linksOf (conditions : List Tree) : Asked Links := do
  let edges ← conditions.filterMapM linked?
  let names := (edges.flatMap fun (a, b) => [a, b]).eraseDups
  return edges.foldl (fun g (a, b) => g.addEdge (names.idxOf a) (names.idxOf b))
    (.start names.length)

def formCycle (conditions : List Tree) : Asked Bool := do
  (← linksOf conditions).hasCycle

abbrev Choice := Keyed Entity

/-- The choices that pass a test, given what each synonym can be. -/
def passing (test : Choice → Asked Bool) : List (String × List Entity) → Choice
    → Asked (List Choice)
  | [], choice => return if ← test choice then [choice] else []
  | (synonym, values) :: rest, choice => do
      let found ← values.mapM fun value => passing test rest (choice ++ [(synonym, value)])
      return found.flatten

def chosen (choice : Choice) (synonym : String) : Asked Entity :=
  match choice.get? synonym with
  | some value => .ok value
  | none => .error (.unknownName synonym)

structure Demand where
  first : String
  second : String
  holds : Entity → Entity → Asked Bool

def Demand.ofCondition (kb : KnowledgeBase) (condition : Tree) : Asked Demand := do
  let m ← modes kb (← condition.label)
  return ⟨← (← condition.part 0).text, ← (← condition.part 1).text, m.memberMember⟩

/-- Whether a choice meets a demand; a fixed argument has no choice. -/
def Demand.met (demand : Asked Demand) (choice : Choice) : Asked Bool := do
  let d ← demand
  let x ← chosen choice d.first
  let y ← chosen choice d.second
  d.holds x y

/-- Narrows all synonyms to the choices that satisfy all conditions together. -/
def resolveCycle (conditions : List Tree) : EvalM Unit := do
  let kb := (← read).knowledge
  let synonyms := ((← sheet).cells.rowNames.erase Sheet.truthRow).erase Sheet.fixedRow
  let ranges ← synonyms.mapM fun synonym => return (synonym, ← valuesOf synonym)
  let demands := conditions.map (Demand.ofCondition kb)
  let choices ← ask (passing (fun choice => demands.allM (Demand.met · choice)) ranges [])
  for synonym in synonyms do
    narrowTo Sheet.finalColumn synonym (choices.filterMap (·.get? synonym))

end ProgramQuery.Evaluation

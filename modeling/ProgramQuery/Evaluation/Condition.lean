import ProgramQuery.Evaluation.Basic

/-! Working out one condition between two arguments. -/

namespace ProgramQuery.Evaluation

open ProgramQuery.Relation

def conditionTitle (relation : String) (first second : Argument) : String :=
  relation ++ "_" ++ first.title ++ "_" ++ second.title

/-- The members for which something is found, and all that is found for them. -/
def collect (members : List Entity) (find : Entity → Asked (List Entity))
    : Asked (List Entity × List Entity) := do
  let finds ← members.mapM fun e => return (e, ← find e)
  let hits := finds.filter fun hit => !hit.2.isEmpty
  return (hits.map (·.1), hits.flatMap (·.2))

/-- The members on either side that are related to a member on the other side. -/
def related (firsts seconds : List Entity) (holds : Entity → Entity → Asked Bool)
    : Asked (List Entity × List Entity) := do
  let lefts ← firsts.filterM fun x => seconds.anyM fun y => holds x y
  let rights ← seconds.filterM fun y => firsts.anyM fun x => holds x y
  return (lefts, rights)

def narrowTo (condition synonym : String) (values : List Entity) : EvalM Unit :=
  narrow condition synonym (.set (.ofList values))

/-- Asks a relation of two arguments and records the outcome. Members are asked about by their texts. A
condition between fixed values is not recorded by its title, only its truth is. -/
def relate (relation : String) (first second : Argument) : EvalM Unit := do
  let m := modes (← read).knowledge relation
  let condition := conditionTitle relation first second
  match first, second with
  | .synonym a (.set xs), .synonym b (.set ys) =>
    let (lefts, rights) ← ask (related xs.members ys.members fun x y => do
      (← m).memberMember x.byText y.byText)
    narrowTo condition a lefts
    narrowTo condition b rights
  | .synonym a (.set xs), .synonym b type =>
    let (lefts, rights) ← ask (collect xs.members fun x => do
      (← m).memberOpen x.byText type.typeText)
    narrowTo condition a lefts
    narrowTo condition b rights
  | .synonym a type, .synonym b (.set ys) =>
    let (rights, lefts) ← ask (collect ys.members fun y => do
      return (← (← m).openMember type.typeText y.byText).filter (· ≠ .missing))
    narrowTo condition a lefts
    narrowTo condition b rights
  | .synonym a type, .synonym b type' =>
    let (lefts, rights) ← ask (do (← m).openOpen type.typeText type'.typeText)
    narrowTo condition a lefts
    narrowTo condition b rights
  | .synonym a (.set xs), .fixed value =>
    narrowTo condition a (← ask (xs.members.filterM fun x => do
      (← m).memberFixed x.byText value))
    narrow condition Sheet.fixedRow (.ofEntity value)
  | .synonym a type, .fixed value =>
    narrowTo condition a (← ask (do (← m).openFixed type.typeText value))
    narrow condition Sheet.fixedRow (.ofEntity value)
  | .fixed value, .synonym b (.set ys) =>
    let rights ← ask (ys.members.filterM fun y => do (← m).fixedMember value y.byText)
    narrow condition Sheet.fixedRow (.ofEntity value)
    narrowTo condition b rights
  | .fixed value, .synonym b type =>
    let rights ← ask (do (← m).fixedOpen value type.typeText)
    narrow condition Sheet.fixedRow (.ofEntity value)
    narrowTo condition b rights
  | .fixed value, .fixed value' =>
    if ← ask (do (← m).fixedFixed value value') then
      modifySheet fun s => { s with
        cells := s.cells.put Sheet.truthRow Sheet.finalColumn (.flag true) }
    else throw .nothingLeft

end ProgramQuery.Evaluation

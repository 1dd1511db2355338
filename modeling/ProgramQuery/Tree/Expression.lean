import ProgramQuery.Fault
import ProgramQuery.Tree.Basic

/-! Comparing the expression of a pattern with one of a program. -/

namespace ProgramQuery.Tree

def heading : Tree → Asked (String × String)
  | .missing => .error .nothingThere
  | .node label text _ _ => .ok (label, text)

def label (t : Tree) : Asked String :=
  return (← t.heading).1

def text (t : Tree) : Asked String :=
  return (← t.heading).2

def part (t : Tree) (i : Nat) : Asked Tree :=
  match t with
  | .missing => .error .nothingThere
  | .node _ _ _ children =>
    match children[i]? with
    | some child => .ok child
    | none => .error .noSuchPart

def parts : Tree → Asked (List Tree)
  | .missing => .error .nothingThere
  | .node _ _ _ children => .ok children

/-- Whether two lists of parts agree place by place. Two parts agree unless both their labels and
their texts differ. -/
def partsAgree : List Tree → List Tree → Asked Bool
  | p :: ps, q :: qs => do
      let (label, text) ← p.heading
      let (label', text') ← q.heading
      if label != label' && text != text' then return false
      partsAgree ps qs
  | _, _ => return true

/-- Compares the top of a pattern with the top of an expression. A pattern with more parts than the
expression fits as soon as the headings do, but the expression has to have a first part. -/
def looksLike (pattern expr : Tree) : Asked Bool := do
  let top ← pattern.heading
  let top' ← expr.heading
  if top != top' then return false
  if pattern.children.length > expr.children.length then
    let _ ← pattern.children.anyM fun p => do
      let h ← p.heading
      return h == (← (← expr.part 0).heading)
    return true
  else if pattern.children.length < expr.children.length then return false
  else partsAgree pattern.children expr.children

mutual

/-- Whether a pattern matches an expression, or, where `deep`, any part of it. -/
def fits (deep : Bool) : Tree → Tree → Asked Bool
  | .missing, pattern => pattern.looksLike .missing
  | .node label text line children, pattern => do
      if ← pattern.looksLike (.node label text line children) then
        fitsAll deep children pattern.children
      else if deep then fitsSome deep children pattern
      else return false

/-- Whether each part of an expression is matched by the part of the pattern in its place. -/
def fitsAll (deep : Bool) : List Tree → List Tree → Asked Bool
  | [], _ => return true
  | _ :: _, [] => .error .noSuchPart
  | expr :: exprs, pattern :: patterns => do
      if ← fits deep expr pattern then fitsAll deep exprs patterns else return false

/-- Whether a pattern matches one of several expressions. -/
def fitsSome (deep : Bool) : List Tree → Tree → Asked Bool
  | [], _ => return false
  | expr :: exprs, pattern => do
      if ← fits deep expr pattern then return true else fitsSome deep exprs pattern

end

end ProgramQuery.Tree

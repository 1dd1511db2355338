import ProgramQuery.Proofs.Query.Printing
import ProgramQuery.Proofs.Relation.Meaning
import ProgramQuery.Sheet.Basic

/-! Queries whose conditions all restrict the one synonym that they select. -/

namespace ProgramQuery.Query

open Text

/-- A condition of any clause. -/
inductive Restriction where
  | comparison (c : AttributeCondition)
  | pattern (c : PatternCondition)
  | relation (c : RelationCondition)

def Clause.restrictions : Clause → List Restriction
  | .suchThat conditions => conditions.map .relation
  | .comparing conditions => conditions.map .comparison
  | .pattern conditions => conditions.map .pattern

def restrictions (q : Query) : List Restriction :=
  q.clauses.flatMap Clause.restrictions

def Restriction.clause : Restriction → Clause
  | .comparison c => .comparing [c]
  | .pattern c => .pattern [c]
  | .relation c => .suchThat [c]

def alone (q : Query) (r : Restriction) : Query :=
  { q with clauses := [r.clause] }

def PatternCondition.synonym : PatternCondition → String
  | .assignment x _ _ => x
  | .branch x _ => x
  | .loop x _ => x

def PatternCondition.target : PatternCondition → Reference
  | .assignment _ target _ => target
  | .branch _ control => control
  | .loop _ control => control

def Reference.IsFixed : Reference → Prop
  | .synonym _ => False
  | _ => True

def Comparand.IsFixed : Comparand → Prop
  | .synonym _ _ => False
  | _ => True

/-- A condition that mentions one synonym and no other. -/
def Restriction.Concerns (x : String) : Restriction → Prop
  | .comparison c => c.synonym = x ∧ c.comparand.IsFixed
  | .pattern c => c.synonym = x ∧ c.target.IsFixed
  | .relation c =>
    (c.first = .synonym x ∧ c.second.IsFixed) ∨ (c.first.IsFixed ∧ c.second = .synonym x)

def Restriction.Accepted (scope : Scope) (q : Query) : Restriction → Prop
  | .comparison c => c.Accepted scope q
  | .pattern c => c.Accepted scope q
  | .relation c => c.Accepted scope q

/-- The things that a synonym of a type stands for. Constants are not among them. -/
def EntityType.kind? : EntityType → Option Kind
  | .loop => some .loop
  | .assignment => some .assignment
  | .statement => some .statement
  | .var => some .variable
  | .constant => none
  | .procedure => some .procedure
  | .line => some .statement
  | .call => some .call
  | .branch => some .branch

def kindOf? (q : Query) (x : String) : Option Kind :=
  (q.typeOf? x).bind EntityType.kind?

def IsBare (digits : String) : Prop :=
  ∃ n : Nat, digits = showInt n

/-- A relation that is told alike whether its synonym has been restricted before or not. Next does not
look at the type of an open synonym. Follows, Modifies and Uses answer another question when `_` stands
on the left of a synonym that has been restricted. Modifies and Uses look up a number by its text.
-/
structure RelationCondition.Steady (kind? : Option Kind) (c : RelationCondition) : Prop where
  typed : ∃ kind, kind? = some kind
    ∧ (c.relation = .next ∨ c.relation = .nextStar → kind = .statement)
  first : c.relation = .follows ∨ c.relation = .modifies ∨ c.relation = .uses →
    c.first ≠ .anything
  bare : c.relation = .modifies ∨ c.relation = .uses → ∀ digits, c.first = .line digits →
    IsBare digits

/-- A condition that leaves the same to a synonym whatever else is known of it. -/
def Restriction.Steady (kind? : Option Kind) : Restriction → Prop
  | .comparison c => ∀ digits, c.comparand = .line digits → IsBare digits
  | .pattern _ => True
  | .relation c => c.Steady kind?

def Restriction.LeavesTexts : Restriction → Prop
  | .comparison c => ∃ digits, c.comparand = .line digits
  | _ => False

/-- A pattern leaves numbers, and so does a comparison of statements with a name. -/
def Restriction.LeavesNumbers : Restriction → Prop
  | .comparison c => ∃ name, c.comparand = .name name
  | .pattern _ => True
  | .relation _ => False

/-- A query that selects a synonym under conditions on this synonym alone. The synonym is not called after
one of the other rows of a sheet. The number 3 and the text `3` are different things, so for a type of
numbers the comparisons and patterns have to leave one or the other.
-/
structure Restricts (scope : Scope) (q : Query) (x : String) : Prop where
  selected : q.selected = some x
  name : x ≠ Sheet.truthRow ∧ x ≠ Sheet.fixedRow
  restricted : q.restrictions ≠ []
  concerns : ∀ r ∈ q.restrictions, r.Concerns x
  accepted : ∀ r ∈ q.restrictions, r.Accepted scope q
  steady : ∀ r ∈ q.restrictions, r.Steady (q.kindOf? x)
  alike : ∀ type, q.typeOf? x = some type → type.isNumbered = true →
    (∀ r ∈ q.restrictions, ¬ r.LeavesTexts) ∨ ∀ r ∈ q.restrictions, ¬ r.LeavesNumbers

section Restricts

variable {scope : Scope} {q q' : Query} {x : String} {r : Restriction}

theorem restrictions_alone : (q.alone r).restrictions = [r] := by
  cases r <;> rfl

/-- What holds of a query holds of those with the same declarations and no other conditions. -/
theorem Restricts.of_subset (restricts : q.Restricts scope x)
    (declarations : q'.declarations = q.declarations) (selected : q'.selected = q.selected)
    (restricted : q'.restrictions ≠ []) (subset : ∀ r ∈ q'.restrictions, r ∈ q.restrictions)
    : q'.Restricts scope x := by
  obtain ⟨_, _, clauses'⟩ := q'
  cases declarations
  cases selected
  refine ⟨restricts.selected, restricts.name, restricted,
    fun r member => restricts.concerns r (subset r member), fun r member => ?_, fun r member => ?_,
    fun type typed numbered => ?_⟩
  · exact restricts.accepted r (subset r member)
  · exact restricts.steady r (subset r member)
  · exact (restricts.alike type typed numbered).imp
      (fun none r member => none r (subset r member))
      fun none r member => none r (subset r member)

theorem Restricts.alone (restricts : q.Restricts scope x) (member : r ∈ q.restrictions)
    : (q.alone r).Restricts scope x := by
  refine restricts.of_subset rfl rfl (by simp [restrictions_alone]) fun r' member' => ?_
  obtain rfl : r' = r := by simpa [restrictions_alone] using member'
  exact member

end Restricts

def Restriction.comparison? : Restriction → Option AttributeCondition
  | .comparison c => some c
  | _ => none

def Restriction.pattern? : Restriction → Option PatternCondition
  | .pattern c => some c
  | _ => none

def Restriction.relation? : Restriction → Option RelationCondition
  | .relation c => some c
  | _ => none

def attributeConditions (q : Query) : List AttributeCondition :=
  q.restrictions.filterMap Restriction.comparison?

def patternConditions (q : Query) : List PatternCondition :=
  q.restrictions.filterMap Restriction.pattern?

def relationConditions (q : Query) : List RelationCondition :=
  q.restrictions.filterMap Restriction.relation?

section Conditions

variable {q : Query} {α : Type} {kept : Restriction → Option α}

theorem mem_filterMap_restrictions {restriction : α → Restriction}
    (inverse : ∀ r c, kept r = some c ↔ r = restriction c) {c : α}
    : c ∈ q.restrictions.filterMap kept ↔ restriction c ∈ q.restrictions := by
  simp [List.mem_filterMap, inverse]

theorem mem_attributeConditions {c : AttributeCondition}
    : c ∈ q.attributeConditions ↔ .comparison c ∈ q.restrictions :=
  mem_filterMap_restrictions fun r c => by cases r <;> simp [Restriction.comparison?]

theorem mem_patternConditions {c : PatternCondition}
    : c ∈ q.patternConditions ↔ .pattern c ∈ q.restrictions :=
  mem_filterMap_restrictions fun r c => by cases r <;> simp [Restriction.pattern?]

theorem mem_relationConditions {c : RelationCondition}
    : c ∈ q.relationConditions ↔ .relation c ∈ q.restrictions :=
  mem_filterMap_restrictions fun r c => by cases r <;> simp [Restriction.relation?]

/-- The trees of one kind of condition, collected clause by clause or from all conditions. -/
theorem flatMap_clauses {trees : Clause → List Tree} {tree : α → Tree}
    (each : ∀ clause, trees clause = (clause.restrictions.filterMap kept).map tree)
    : q.clauses.flatMap trees = (q.restrictions.filterMap kept).map tree := by
  rw [restrictions, List.filterMap_flatMap, List.map_flatMap, ← funext each]

/-- Each kind of condition has a part of its own, whatever clauses the conditions stand in. -/
theorem tree_eq (q : Query)
    : q.tree = .node "QUERY" "query" 0
        (.node "RESULT" "" 0 [q.resultTree]
          :: (part "WITH" (q.attributeConditions.map q.attributeTree)
            ++ part "PATTERN" (q.patternConditions.map q.patternTree)
            ++ part "SUCH_THAT" (q.relationConditions.map q.relationTree))) := by
  have comparisons : q.clauses.flatMap q.comparisons = q.attributeConditions.map q.attributeTree :=
    flatMap_clauses fun clause => by
      cases clause <;> simp [Query.comparisons, Clause.restrictions, List.filterMap_map,
        Function.comp_def, Restriction.comparison?]
  have patterns : q.clauses.flatMap q.patterns = q.patternConditions.map q.patternTree :=
    flatMap_clauses fun clause => by
      cases clause <;> simp [Query.patterns, Clause.restrictions, List.filterMap_map,
        Function.comp_def, Restriction.pattern?]
  have relations : q.clauses.flatMap q.relations = q.relationConditions.map q.relationTree :=
    flatMap_clauses fun clause => by
      cases clause <;> simp [Query.relations, Clause.restrictions, List.filterMap_map,
        Function.comp_def, Restriction.relation?]
  rw [Query.tree, comparisons, patterns, relations]

end Conditions

end ProgramQuery.Query

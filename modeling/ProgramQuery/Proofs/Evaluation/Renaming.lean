import ProgramQuery.Proofs.Evaluation.Conjunction
import ProgramQuery.Proofs.Evaluation.Join
import ProgramQuery.Proofs.Query.Synonyms

/-! Other names for the synonyms of a query. The order in which sets come out may change with the names,
so two queries that differ by their names are compared under any two orders.
-/

namespace ProgramQuery

open Text ProgramQuery.Relation Evaluation

variable {f : String → String}

section Joins

variable {p : Program} {q q' : JoinQuery}

def Term.rename (f : String → String) : Term → Term
  | .synonym x => .synonym (f x)
  | .line n => .line n

def Condition.rename (f : String → String) (c : Condition) : Condition :=
  ⟨c.relation, c.first.rename f, c.second.rename f⟩

/-- A query is another one with other names for its synonyms, which stand for the same kinds. -/
structure JoinQuery.Renames (f : String → String) (q q' : JoinQuery) : Prop where
  kinds : ∀ x, q'.kinds (f x) = q.kinds x
  selected : q'.selected = f q.selected
  conditions : q'.conditions = q.conditions.map (·.rename f)

theorem Term.value_rename (choice : String → Entity) (term : Term)
    : (term.rename f).value choice = term.value (choice ∘ f) := by
  cases term <;> rfl

theorem Condition.mem_synonyms_rename {c : Condition} {y : String}
    : y ∈ (c.rename f).synonyms ↔ ∃ x ∈ c.synonyms, f x = y := by
  obtain ⟨_, first, second⟩ := c
  cases first <;> cases second <;>
    simp [Condition.rename, Condition.synonyms, Term.rename, Term.synonym?, eq_comm]

/-- A choice for the new names is one for the old ones. -/
theorem JoinQuery.Renames.meets_iff (renames : q.Renames f q') {choice : String → Entity}
    : Meets p q'.kinds q'.conditions choice ↔ Meets p q.kinds q.conditions (choice ∘ f) := by
  rw [renames.conditions]
  constructor
  · intro meets
    constructor
    · intro c member x occurs
      have fits := meets.fits _ (List.mem_map_of_mem member) (f x)
        (Condition.mem_synonyms_rename.mpr ⟨x, occurs, rfl⟩)
      rwa [renames.kinds] at fits
    · intro c member
      rw [← Term.value_rename, ← Term.value_rename]
      exact meets.holds _ (List.mem_map_of_mem member)
  · intro meets
    constructor
    · intro _ renamed y occurs
      obtain ⟨c, member, rfl⟩ := List.mem_map.mp renamed
      obtain ⟨x, inside, rfl⟩ := Condition.mem_synonyms_rename.mp occurs
      rw [renames.kinds]
      exact meets.fits c member x inside
    · intro _ renamed
      obtain ⟨c, member, rfl⟩ := List.mem_map.mp renamed
      simp only [Condition.rename, Term.value_rename]
      exact meets.holds c member

/-- Where no two synonyms get one name, every choice for the old names comes from one for the new ones. -/
theorem exists_choice_comp (injective : Function.Injective f) (choice : String → Entity)
    : ∃ choice' : String → Entity, choice' ∘ f = choice :=
  have : Nonempty Entity := ⟨.line 0⟩
  injective.surjective_comp_right choice

theorem JoinQuery.Renames.selects_iff (renames : q.Renames f q') (injective : Function.Injective f)
    (e : Entity)
    : q'.Selects p e ↔ q.Selects p e := by
  unfold JoinQuery.Selects
  rw [renames.selected, renames.kinds]
  constructor
  · rintro ⟨choice, meets, chosen⟩
    exact ⟨choice ∘ f, renames.meets_iff.mp meets, chosen⟩
  · rintro ⟨choice, meets, chosen⟩
    obtain ⟨choice', rfl⟩ := exists_choice_comp injective choice
    exact ⟨choice', renames.meets_iff.mpr meets, chosen⟩

end Joins

namespace Query

def Reference.rename (f : String → String) : Reference → Reference
  | .synonym x => .synonym (f x)
  | fixed => fixed

def Comparand.rename (f : String → String) : Comparand → Comparand
  | .synonym x attr => .synonym (f x) attr
  | fixed => fixed

def RelationCondition.rename (f : String → String) (c : RelationCondition) : RelationCondition :=
  ⟨c.relation, c.first.rename f, c.second.rename f⟩

def AttributeCondition.rename (f : String → String) (c : AttributeCondition) : AttributeCondition :=
  ⟨f c.synonym, c.attr, c.comparand.rename f⟩

def PatternCondition.rename (f : String → String) : PatternCondition → PatternCondition
  | .assignment x target value => .assignment (f x) (target.rename f) value
  | .branch x control => .branch (f x) (control.rename f)
  | .loop x control => .loop (f x) (control.rename f)

def Clause.rename (f : String → String) : Clause → Clause
  | .suchThat conditions => .suchThat (conditions.map (·.rename f))
  | .comparing conditions => .comparing (conditions.map (·.rename f))
  | .pattern conditions => .pattern (conditions.map (·.rename f))

def Restriction.rename (f : String → String) : Restriction → Restriction
  | .comparison c => .comparison (c.rename f)
  | .pattern c => .pattern (c.rename f)
  | .relation c => .relation (c.rename f)

/-- The query with other names for its synonyms. Quoted names and numbers are left as they are. -/
def rename (f : String → String) (q : Query) : Query where
  declarations := q.declarations.map fun d => ⟨d.type, d.names.map f⟩
  selected := q.selected.map f
  clauses := q.clauses.map (·.rename f)

section Restrictions

variable {q : Query} {subject : Subject} {x : String} {r : Restriction}

end Restrictions

end Query

section Initials

variable {c d : Tree}

end Initials

end ProgramQuery

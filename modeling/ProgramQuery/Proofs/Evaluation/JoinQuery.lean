import ProgramQuery.Evaluation.Query
import ProgramQuery.Proofs.Relation.Exactness

/-! Queries that select the values of a synonym for which several conditions hold together. -/

open Relation (ReflTransGen)

namespace ProgramQuery

open Text

/-- An argument of a condition: a synonym or the number of a statement. -/
inductive Term where
  | synonym (name : String)
  | line (n : Nat)
  deriving DecidableEq

namespace Term

def synonym? : Term → Option String
  | .synonym x => some x
  | .line _ => none

def value (choice : String → Entity) : Term → Entity
  | .synonym x => choice x
  | .line n => .line n

def tree (kinds : String → Kind) : Term → Tree
  | .synonym x => .leaf (kinds x).label x
  | .line n => .leaf "INTEGER" (showInt n)

end Term

structure Condition where
  relation : RelationName
  first : Term
  second : Term
  deriving DecidableEq

/-- What a number counts as on either side of a relation. -/
def RelationName.numberKinds : RelationName → Kind × Kind
  | .modifies => (.statement, .variable)
  | .uses => (.statement, .variable)
  | .calls => (.procedure, .procedure)
  | .callsStar => (.procedure, .procedure)
  | _ => (.statement, .statement)

def RelationName.plain : RelationName → RelationName
  | .followsStar => .follows
  | .parentStar => .parent
  | .callsStar => .calls
  | .nextStar => .next
  | relation => relation

namespace Condition

def synonyms (c : Condition) : List String :=
  [c.first, c.second].filterMap Term.synonym?

theorem mem_synonyms {c : Condition} {x : String}
    : x ∈ c.synonyms ↔ c.first = .synonym x ∨ c.second = .synonym x := by
  cases first : c.first <;> cases second : c.second <;>
    simp [synonyms, first, second, Term.synonym?, eq_comm]

def tree (kinds : String → Kind) (c : Condition) : Tree :=
  .node c.relation.title "" 0 [c.first.tree kinds, c.second.tree kinds]

def firstKind (kinds : String → Kind) (c : Condition) : Kind :=
  (c.first.synonym?.map kinds).getD c.relation.numberKinds.1

def secondKind (kinds : String → Kind) (c : Condition) : Kind :=
  (c.second.synonym?.map kinds).getD c.relation.numberKinds.2

end Condition

/-- Two synonyms that a condition connects. Whether the relation is starred makes no difference. -/
structure Link where
  relation : RelationName
  first : String
  second : String
  deriving DecidableEq

def Condition.link? (c : Condition) : Option Link :=
  match c.first, c.second with
  | .synonym a, .synonym b => some ⟨c.relation.plain, a, b⟩
  | _, _ => none

/-- One can get from one synonym to another along some links, in either direction. -/
def Connected (links : List Link) : String → String → Prop :=
  ReflTransGen fun a b => ∃ l ∈ links,
    (l.first = a ∧ l.second = b) ∨ (l.first = b ∧ l.second = a)

theorem Connected.symm {links : List Link} {a b : String} (connected : Connected links a b)
    : Connected links b a := by
  induction connected with
  | refl => exact .refl
  | tail _ step ih =>
    obtain ⟨l, member, ends⟩ := step
    exact .head ⟨l, member, ends.symm⟩ ih

/-- No link lies on a cycle: without it, its ends are not connected. -/
def Forest (links : List Link) : Prop :=
  ∀ l ∈ links, ¬ Connected (links.erase l) l.first l.second

/-- A query for the values of one synonym. -/
structure JoinQuery where
  kinds : String → Kind
  selected : String
  conditions : List Condition

/-- A choice of what each synonym stands for meets some conditions. -/
structure Meets (p : Program) (kinds : String → Kind) (conditions : List Condition)
    (choice : String → Entity)
    : Prop where
  fits : ∀ c ∈ conditions, ∀ x ∈ c.synonyms, p.Fits (kinds x) (choice x)
  holds : ∀ c ∈ conditions, p.Holds c.relation (c.first.value choice) (c.second.value choice)

/-- Only the synonyms of the conditions matter. -/
theorem Meets.congr {p : Program} {kinds : String → Kind} {all : List Condition}
    {choice choice' : String → Entity} (meets : Meets p kinds all choice)
    (same : ∀ c ∈ all, ∀ x ∈ c.synonyms, choice x = choice' x)
    : Meets p kinds all choice' where
  fits c member x occurs := same c member x occurs ▸ meets.fits c member x occurs
  holds c member := by
    have value {term : Term} (occurs : ∀ x, term = .synonym x → x ∈ c.synonyms)
        : term.value choice = term.value choice' := by
      cases term with
      | synonym x => exact same c member x (occurs x rfl)
      | line n => rfl
    rw [← value fun x first => Condition.mem_synonyms.mpr (.inl first),
      ← value fun x second => Condition.mem_synonyms.mpr (.inr second)]
    exact meets.holds c member

namespace JoinQuery

def links (q : JoinQuery) : List Link :=
  (q.conditions.filterMap Condition.link?).eraseDups

def tree (q : JoinQuery) : Tree :=
  .node "QUERY" "query" 0
    [.node "RESULT" "" 0 [.leaf (q.kinds q.selected).label q.selected],
      .node "SUCH_THAT" "" 0 (q.conditions.map (·.tree q.kinds))]

/-- Some choice meets all conditions and lets the selected synonym stand for a thing. -/
def Selects (q : JoinQuery) (p : Program) (e : Entity) : Prop :=
  ∃ choice, Meets p q.kinds q.conditions choice
    ∧ p.Fits (q.kinds q.selected) (choice q.selected) ∧ choice q.selected = e

/-- What is asked of a query: each relation is asked about the kinds it is made for, and statements
are named by their numbers only where the links between the synonyms form no cycle. -/
structure WellFormed (q : JoinQuery) (p : Program) : Prop where
  conditions : q.conditions ≠ []
  selected : isSynonym q.selected = true
  synonyms : ∀ c ∈ q.conditions, ∀ x ∈ c.synonyms, isSynonym x = true
  apart : ∀ c ∈ q.conditions, ∀ x, c.first = .synonym x → c.second ≠ .synonym x
  allowed : ∀ c ∈ q.conditions, c.relation.Allows (c.firstKind q.kinds) (c.secondKind q.kinds)
  lines : ∀ c ∈ q.conditions, ∀ n, c.first = .line n ∨ c.second = .line n → 1 ≤ n ∧ n ≤ p.size
  forest : (∃ c ∈ q.conditions, c.link? = none) → Forest q.links

end JoinQuery

end ProgramQuery

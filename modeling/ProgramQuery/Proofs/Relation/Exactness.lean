import ProgramQuery.Proofs.Relation.EffectModes
import ProgramQuery.Proofs.Relation.NestingModes
import ProgramQuery.Proofs.Relation.StepModes

/-! Every relation is answered exactly between the kinds of things it is made for. -/

namespace ProgramQuery

open ProgramQuery.Relation

/-- The kinds of synonyms that a relation can be asked about. Next does not look at the kinds of its
arguments, and neither does Calls; Modifies and Uses only look at the first. -/
def RelationName.Allows : RelationName → Kind → Kind → Prop
  | .follows, _, _ => True
  | .followsStar, _, _ => True
  | .parent, _, _ => True
  | .parentStar, _, _ => True
  | .modifies, first, second => first ≠ .variable ∧ second = .variable
  | .modifiesStar, _, _ => False
  | .uses, first, second => first ≠ .variable ∧ second = .variable
  | .usesStar, _, _ => False
  | .calls, first, second => first = .procedure ∧ second = .procedure
  | .callsStar, first, second => first = .procedure ∧ second = .procedure
  | .next, first, second => first = .statement ∧ second = .statement
  | .nextStar, first, second => first = .statement ∧ second = .statement

/-- A program without empty lists or calls of something undeclared, and what is known about it. Its
statement numbers are short enough to be read back. -/
structure Setting (p : Program) (knowledge : KnowledgeBase) : Prop where
  known : KnowledgeBase.ofProgram? p = some knowledge
  named : p.Named
  filled : p.Filled
  declared : p.CalleesDeclared
  short : p.Short

theorem Setting.modes_exact {p : Program} {knowledge : KnowledgeBase}
    (setting : Setting p knowledge) {relation : RelationName} {first second : Kind}
    (allowed : relation.Allows first second)
    : ∃ m, relation.modes? knowledge = some m ∧ m.Plain
      ∧ m.Exact p (p.Holds relation) first second := by
  obtain ⟨known, named, filled, declared, short⟩ := setting
  have describes := KnowledgeBase.describes_of_ofProgram? known
  obtain ⟨lists, modifies, uses⟩ := KnowledgeBase.ofProgram?_eq_some known
  cases relation with
  | follows =>
    exact ⟨_, rfl, Follows.modes_plain _, Follows.modes_exact describes named short⟩
  | followsStar =>
    exact ⟨_, rfl, FollowsStar.modes_plain _, FollowsStar.modes_exact describes named short⟩
  | parent =>
    exact ⟨_, rfl, Parent.modes_plain _, Parent.modes_exact describes named short filled⟩
  | parentStar =>
    exact ⟨_, rfl, ParentStar.modes_plain _, ParentStar.modes_exact describes named short filled⟩
  | modifies =>
    obtain ⟨place, rfl⟩ := allowed
    exact ⟨_, rfl, effectModes_plain _ _, effectModes_exact modifies describes named short
      (fun _ _ => .inl) (fun _ _ listed _ _ => filled.exists_touches declared lists listed) place⟩
  | modifiesStar => exact allowed.elim
  | uses =>
    obtain ⟨place, rfl⟩ := allowed
    exact ⟨_, rfl, effectModes_plain _ _, effectModes_exact uses describes named short
      (fun _ _ => .inr) (fun _ _ _ _ kept => by cases kept) place⟩
  | usesStar => exact allowed.elim
  | calls =>
    obtain ⟨rfl, rfl⟩ := allowed
    exact ⟨_, rfl, callModes_plain, Calls.modes_exact describes named declared⟩
  | callsStar =>
    obtain ⟨rfl, rfl⟩ := allowed
    exact ⟨_, rfl, callModes_plain, CallsStar.modes_exact describes named declared lists⟩
  | next =>
    obtain ⟨rfl, rfl⟩ := allowed
    exact ⟨_, rfl, stepModes_plain, Next.modes_exact describes named short filled⟩
  | nextStar =>
    obtain ⟨rfl, rfl⟩ := allowed
    exact ⟨_, rfl, stepModes_plain, NextStar.modes_exact describes named short filled⟩

end ProgramQuery

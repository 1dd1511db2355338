import ProgramQuery.Proofs.Query.Restrictions
import ProgramQuery.Proofs.Relation.EffectModes
import ProgramQuery.Proofs.Relation.NestingModes
import ProgramQuery.Proofs.Relation.StepModes

/-! What the conditions of a query ask of a program. A choice gives each synonym one thing that it stands
for, and a query can be satisfied if some choice meets all its conditions.
-/

open Relation (TransGen)

namespace ProgramQuery

open Text

def Expr.parts : Expr → List Expr
  | .name x => [.name x]
  | .literal digits => [.literal digits]
  | .binary op left right => .binary op left right :: (left.parts ++ right.parts)

namespace Query

def numberOf (digits : String) : Nat :=
  Nat.ofDigitChars 10 digits.toList 0

/-- What a synonym of a type can stand for. A constant is the number that a literal writes. -/
def EntityType.Ranges (p : Program) (type : EntityType) (e : Entity) : Prop :=
  match type.kind? with
  | some kind => p.Fits kind e
  | none => ∃ line s, (line, s) ∈ p.listing
      ∧ ∃ digits ∈ Program.literalsOf s, e = .line (numberOf digits)

/-- The relation that is asked for. Modifies and Uses go through calls and nested statements with or
without a star. -/
def meant : RelationName → RelationName
  | .modifiesStar => .modifies
  | .usesStar => .uses
  | relation => relation

/-- What a thing has as an attribute. A call has the name of the procedure that it calls, and anything
else is named or numbered by itself. -/
def Attribute.IsOf (p : Program) : Attribute → Entity → Entity → Prop
  | .procedureName, .line n, given =>
    ∃ line callee, (line, Stmt.call callee) ∈ p.listing ∧ ((line : Nat) : Int) = n
      ∧ given = .name callee
  | _, e, given => given = e

def RightSide.Matches : RightSide → Expr → Prop
  | .anything, _ => True
  | .whole e, value => value = e
  | .part e, value => e ∈ value.parts

section Choice

variable (p : Program) (q : Query) (choice : String → Entity)

def StandsFor (x : String) (e : Entity) : Prop :=
  choice x = e ∧ ∃ type, q.typeOf? x = some type ∧ type.Ranges p e

def Reference.Denotes : Reference → Entity → Prop
  | .synonym x, e => q.StandsFor p choice x e
  | .anything, _ => True
  | .line digits, e => e = .line (numberOf digits)
  | .name x, e => e = .name x

def RelationCondition.Holds (c : RelationCondition) : Prop :=
  ∃ e e', c.first.Denotes p q choice e ∧ c.second.Denotes p q choice e'
    ∧ p.Holds (meant c.relation) e e'

def PatternCondition.Holds : PatternCondition → Prop
  | .assignment x target value => ∃ (line : Nat) (name : String) (e : Expr),
      q.StandsFor p choice x (.line line) ∧ (line, Stmt.assign name e) ∈ p.listing
      ∧ target.Denotes p q choice (.name name) ∧ value.Matches e
  | .branch x control => ∃ (line : Nat) (name : String) (thenBody elseBody : List Stmt),
      q.StandsFor p choice x (.line line) ∧ (line, Stmt.branch name thenBody elseBody) ∈ p.listing
      ∧ control.Denotes p q choice (.name name)
  | .loop x control => ∃ (line : Nat) (name : String) (body : List Stmt),
      q.StandsFor p choice x (.line line) ∧ (line, Stmt.loop name body) ∈ p.listing
      ∧ control.Denotes p q choice (.name name)

def Comparand.Denotes : Comparand → Entity → Prop
  | .name x, value => value = .name x
  | .line digits, value => value = .line (numberOf digits)
  | .synonym x a, value => ∃ e, q.StandsFor p choice x e ∧ a.IsOf p e value

def AttributeCondition.Holds (c : AttributeCondition) : Prop :=
  ∃ e value, q.StandsFor p choice c.synonym e ∧ c.comparand.Denotes p q choice value
    ∧ match c.attr with
      | none => value = e
      | some a => a.IsOf p e value

def Restriction.Holds : Restriction → Prop
  | .comparison c => c.Holds p q choice
  | .pattern c => c.Holds p q choice
  | .relation c => c.Holds p q choice

/-- A choice meets all conditions. -/
def Satisfies : Prop :=
  ∀ r ∈ q.restrictions, r.Holds p q choice

end Choice

section WellTyped

variable (q : Query)

/-- An integer. Where it has too many digits to be read, none of them is a zero in front. -/
def IsInteger (digits : String) : Prop :=
  isNumeral digits = true ∧ (digits.toList.length ≤ mostDigits ∨ IsBare digits)

def IsLineArgument : Reference → Prop
  | .synonym x => ∃ type, q.typeOf? x = some type ∧ type.isNumbered = true
  | .anything => True
  | .line digits => IsInteger digits
  | .name _ => False

def IsNamedArgument (type : EntityType) : Reference → Prop
  | .synonym x => q.typeOf? x = some type
  | .anything => True
  | .line _ => False
  | .name x => isQuotable x = true

def RelationCondition.Typed (c : RelationCondition) : Prop :=
  match c.relation with
  | .parent | .parentStar | .follows | .followsStar | .next | .nextStar =>
    q.IsLineArgument c.first ∧ q.IsLineArgument c.second
  | .calls | .callsStar =>
    q.IsNamedArgument .procedure c.first ∧ q.IsNamedArgument .procedure c.second
  | .modifies | .modifiesStar | .uses | .usesStar =>
    (q.IsLineArgument c.first ∨ q.IsNamedArgument .procedure c.first)
      ∧ q.IsNamedArgument .var c.second

def PatternCondition.Typed : PatternCondition → Prop
  | .assignment x target value =>
    q.typeOf? x = some .assignment ∧ q.IsNamedArgument .var target ∧ value.Accepted
  | .branch x control => q.typeOf? x = some .branch ∧ q.IsNamedArgument .var control
  | .loop x control => q.typeOf? x = some .loop ∧ q.IsNamedArgument .var control

def Comparand.Typed : Comparand → Prop
  | .name x => isQuotable x = true
  | .line digits => IsInteger digits
  | .synonym x a => ∃ type, q.typeOf? x = some type ∧ type.has a = true

def AttributeCondition.Typed (c : AttributeCondition) : Prop :=
  (∃ type, q.typeOf? c.synonym = some type
    ∧ match c.attr with
      | none => type = .line
      | some a => type.has a = true)
  ∧ c.comparand.Typed q

def Restriction.Typed : Restriction → Prop
  | .comparison c => c.Typed q
  | .pattern c => c.Typed q
  | .relation c => c.Typed q

/-- A query that is put together as the grammar wants it, whatever numbers and names it mentions and
whether or not the arguments of a relation are the same. -/
structure WellTyped : Prop where
  synonyms : ∀ d ∈ q.declarations, ∀ x ∈ d.names, isSynonym x = true
  distinct : (q.declarations.flatMap Declaration.names).Nodup
  selected : ∀ x ∈ q.selected, ∃ type, q.typeOf? x = some type
  clauses : ∀ clause ∈ q.clauses, clause.restrictions ≠ []
  conditions : ∀ r ∈ q.restrictions, r.Typed q

end WellTyped

end Query

end ProgramQuery

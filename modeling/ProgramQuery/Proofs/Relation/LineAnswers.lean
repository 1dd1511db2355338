import ProgramQuery.Proofs.Relation.Answers

/-! Answers that are lists of statement numbers, and questions that first read a number. -/

open Relation (TransGen)

namespace ProgramQuery

open Text ProgramQuery.Relation

section Enumerates

variable {p : Program} {knowledge : KnowledgeBase} {kind : Kind} {xs ys : List Int}
  {property other : Nat → Prop} {rel : Nat → Nat → Prop}

theorem mem_common {α : Type} [BEq α] [LawfulBEq α] {xs ys : List α} {x : α}
    : x ∈ common xs ys ↔ x ∈ xs ∧ x ∈ ys := by
  simp [common]

theorem Enumerates.congr (all : Enumerates xs property) (same : ∀ n, property n ↔ other n)
    : Enumerates xs other := by
  intro n
  simp only [all n, same]

theorem Enumerates.filter (all : Enumerates xs property) {test : Int → Bool}
    (tests : ∀ n : Nat, property n → (test n = true ↔ other n))
    : Enumerates (xs.filter test) fun n => property n ∧ other n := by
  intro n
  rw [List.mem_filter, all]
  constructor
  · rintro ⟨⟨line, holds, rfl⟩, passed⟩
    exact ⟨line, ⟨holds, (tests line holds).mp passed⟩, rfl⟩
  · rintro ⟨line, ⟨holds, holds'⟩, rfl⟩
    exact ⟨⟨line, holds, rfl⟩, (tests line holds).mpr holds'⟩

theorem Enumerates.common (all : Enumerates xs property) (all' : Enumerates ys other)
    : Enumerates (common xs ys) fun n => property n ∧ other n := by
  intro n
  rw [mem_common, all]
  constructor
  · rintro ⟨⟨line, holds, rfl⟩, member⟩
    exact ⟨line, ⟨holds, all'.mem_iff.mp member⟩, rfl⟩
  · rintro ⟨line, ⟨holds, holds'⟩, rfl⟩
    exact ⟨⟨line, holds, rfl⟩, all'.mem_iff.mpr holds'⟩

theorem Enumerates.eraseDups (all : Enumerates xs property) : Enumerates xs.eraseDups property := by
  intro n
  rw [List.mem_eraseDups, all]

theorem Enumerates.flatMap (all : Enumerates xs property) {f : Int → List Int}
    (each : ∀ n : Nat, property n → Enumerates (f n) (rel n))
    : Enumerates (xs.flatMap f) fun m => ∃ n, property n ∧ rel n m := by
  intro m
  simp only [List.mem_flatMap, all _]
  constructor
  · rintro ⟨_, ⟨n, holds, rfl⟩, member⟩
    obtain ⟨line, related, rfl⟩ := (each n holds m).mp member
    exact ⟨line, ⟨n, holds, related⟩, rfl⟩
  · rintro ⟨line, ⟨n, holds, related⟩, rfl⟩
    exact ⟨n, ⟨n, holds, rfl⟩, (each n holds).mem_iff.mpr related⟩

theorem Enumerates.filterMap (all : Enumerates xs property) {f : Int → Option Int}
    (steps : ∀ x y, f x = some y ↔ onNumbers rel x y)
    : Enumerates (xs.filterMap f) fun m => ∃ n, property n ∧ rel n m := by
  intro m
  simp only [List.mem_filterMap, all _, steps]
  constructor
  · rintro ⟨_, ⟨n, holds, rfl⟩, related⟩
    obtain ⟨line, related', rfl⟩ := onNumbers_natCast.mp related
    exact ⟨line, ⟨n, holds, related'⟩, rfl⟩
  · rintro ⟨line, ⟨n, holds, related⟩, rfl⟩
    exact ⟨n, ⟨n, holds, rfl⟩, n, line, related, rfl, rfl⟩

/-- Whether the one statement that has a property is in a list. -/
theorem Enumerates.any_contains {line : Option Int} (one : Enumerates line.toList other)
    (all : Enumerates xs property)
    : line.any xs.contains = true ↔ ∃ n, property n ∧ other n := by
  simp only [Option.any_eq_true, ← Option.mem_toList, one _, List.contains_iff_mem]
  constructor
  · rintro ⟨_, ⟨n, holds, rfl⟩, member⟩
    exact ⟨n, all.mem_iff.mp member, holds⟩
  · rintro ⟨n, holds, holds'⟩
    exact ⟨n, ⟨n, holds', rfl⟩, all.mem_iff.mpr holds⟩

theorem Enumerates.isEmpty (all : Enumerates xs property)
    : (!xs.isEmpty) = true ↔ ∃ n, property n := by
  rw [hasMembers_iff]
  constructor
  · intro ⟨n, member⟩
    obtain ⟨line, holds, -⟩ := (all n).mp member
    exact ⟨line, holds⟩
  · exact fun ⟨n, holds⟩ => ⟨n, all.mem_iff.mpr holds⟩

theorem Enumerates.mem_lines (all : Enumerates xs property) {e : Entity}
    : e ∈ lines xs ↔ ∃ line : Nat, property line ∧ e = .line line := by
  simp only [lines, List.mem_map, all _]
  constructor
  · rintro ⟨_, ⟨line, holds, rfl⟩, rfl⟩
    exact ⟨line, holds, rfl⟩
  · rintro ⟨line, holds, rfl⟩
    exact ⟨line, ⟨line, holds, rfl⟩, rfl⟩

variable (describes : knowledge.Describes p)
include describes

theorem KnowledgeBase.Describes.enumerates_linesOfKind (special : kind ≠ .statement)
    : Enumerates (knowledge.linesOfKind kind.label) fun n => p.Fits kind (.line n) := by
  intro n
  rw [describes.mem_linesOfKind special]
  constructor
  · intro fits
    obtain ⟨line, rfl, -⟩ := fits.exists_line
    exact ⟨line, fits, rfl⟩
  · rintro ⟨line, fits, rfl⟩
    exact fits

/-- The statements that fit a kind are kept. -/
theorem Enumerates.fitting (all : Enumerates xs property)
    (listed : ∀ n, property n → ∃ s, (n, s) ∈ p.listing) (kind : Kind)
    : Enumerates (fitting knowledge kind.label xs) fun n => property n ∧ p.Fits kind (.line n) := by
  rw [Relation.fitting]
  by_cases special : kind = .statement
  · subst special
    rw [if_pos (Kind.label_eq_anyStatement.mpr rfl)]
    refine all.congr fun n => ⟨fun holds => ⟨holds, ?_⟩, And.left⟩
    exact Program.fits_statement_line.mpr (listed n holds)
  · rw [if_neg (by simpa using special)]
    exact all.common (describes.enumerates_linesOfKind special)

end Enumerates

section Numbers

variable {p : Program} {kind first second : Kind} {x y v w : Entity} {rel : Nat → Nat → Prop}
  {ns : List Int}

theorem Program.Named.isName (named : p.Named) {s : String} (fits : p.Fits kind (.name s))
    : isName s = true := by
  rcases fits with ⟨-, procedure, declared, rfl⟩ | ⟨-, line, statement, listed, does⟩
  · exact (named procedure declared).name
  · have own := named.ownNamed listed
    rcases does with ⟨value, rfl⟩ | ⟨target, value, rfl, member⟩ | ⟨body, rfl⟩ | ⟨_, _, rfl⟩
    · simp only [Stmt.ownNamed, Bool.and_eq_true] at own
      exact own.1
    · simp only [Stmt.ownNamed, Bool.and_eq_true, List.all_eq_true] at own
      exact own.2 s member
    · exact own
    · exact own

theorem Program.Askable.cases (askable : p.Askable kind x)
    : (∃ line : Nat, x = .line line ∧ ∃ s, (line, s) ∈ p.listing)
      ∨ ∃ s, x = .name s ∧ p.Fits kind (.name s) := by
  rcases askable with fits | fits
  · match x, fits with
    | .line n, fits =>
      obtain ⟨line, rfl, listed⟩ := fits.exists_line
      exact .inl ⟨line, rfl, listed⟩
    | .name s, fits => exact .inr ⟨s, rfl, fits⟩
  · exact .inl (Program.fits_statement fits)

/-- A kind that something fits by its name is fit by no statement. -/
theorem Program.Fits.not_line {s : String} (fits : p.Fits kind (.name s)) (n : Int)
    : ¬ p.Fits kind (.line n) := by
  rintro ⟨line, statement, -, admitted, -⟩
  rcases fits with ⟨rfl, -⟩ | ⟨rfl, -⟩ <;> simp [Kind.admits] at admitted

/-- Procedures and variables are names. -/
theorem Program.Fits.exists_name (fits : p.Fits kind x)
    (isNamed : kind = .procedure ∨ kind = .variable)
    : ∃ a, x = .name a := by
  cases x with
  | missing => exact fits.elim
  | name a => exact ⟨a, rfl⟩
  | line n =>
    obtain ⟨line, s, -, admitted, -⟩ := fits
    rcases isNamed with rfl | rfl <;> simp [Kind.admits] at admitted

/-- No question about a thing of the program is one about anything. -/
theorem Program.Askable.ne_anything (askable : p.Askable kind x) (named : p.Named)
    (stands : Stands v x)
    : v ≠ anything := by
  have texts : x.text ≠ "_" := by
    rcases askable.cases with ⟨line, rfl, -⟩ | ⟨s, rfl, fits⟩
    · intro same
      have digits := (showInt_digits line).2 '_' (by simp [show showInt line = "_" from same])
      exact absurd digits (by decide)
    · obtain ⟨c, cs, heading, letter, -⟩ := isName_iff.mp (named.isName fits)
      rintro rfl
      obtain ⟨rfl, -⟩ : '_' = c ∧ [] = cs := by simpa using heading
      exact absurd letter (by decide)
  rcases stands with rfl | rfl
  · rintro rfl
    exact texts rfl
  · simpa [Entity.byText, anything] using texts

/-- An argument is read as the number of a statement, or there is a reason why it cannot be. -/
def Numbered (reason : Prop) (v x : Entity) : Prop :=
  Answers reason (Relation.numberOf v) fun n => ∃ a : Nat, n = a ∧ x = .line a

theorem Answers.read {β : Type} {reason : Prop} {f : Int → Asked β} {good : β → Prop}
    (numbered : Numbered reason v x)
    (lines : ∀ a : Nat, x = .line a → Answers reason (f a) good)
    : Answers reason (Relation.numberOf v >>= f) good := by
  refine Answers.bind numbered ?_
  rintro _ ⟨a, rfl, isLine⟩
  exact lines a isLine

/-- A number can be read off any statement, and otherwise the kind asked about has none. -/
theorem Program.Askable.numbered {reason : Prop} (askable : p.Askable kind x) (stands : Stands v x)
    (named : p.Named) (short : p.Short) (refused : (∀ n, ¬ p.Fits kind (.line n)) → reason)
    : Numbered reason v x := by
  unfold Numbered
  rcases askable.cases with ⟨line, rfl, listed⟩ | ⟨s, rfl, fits⟩
  · have read : Relation.numberOf v = .ok (line : Int) := by
      rcases stands with rfl | rfl
      · rfl
      · simp [Relation.numberOf, Entity.byText, Entity.text, number,
          readInt?_showInt (short.line_lt listed)]
    rw [read]
    exact ⟨line, rfl, rfl⟩
  · have unread : Relation.numberOf v = .error (.notANumber s) := by
      obtain ⟨c, cs, heading, letter, -⟩ := isName_iff.mp (named.isName fits)
      rcases stands with rfl | rfl <;>
        simp [Relation.numberOf, Entity.byText, Entity.text, number,
          readInt?_of_isLetter heading letter]
    rw [unread]
    exact refused fits.not_line

theorem Program.unrelated_of_first (none : ∀ n, ¬ p.Fits first (.line n))
    : p.Unrelated (onLines rel) first second := by
  intro x y fits _ holds
  obtain ⟨a, b, -, rfl, rfl⟩ := holds.lines
  exact none _ fits

theorem Program.unrelated_of_second (none : ∀ n, ¬ p.Fits second (.line n))
    : p.Unrelated (onLines rel) first second := by
  intro x y _ fits holds
  obtain ⟨a, b, -, rfl, rfl⟩ := holds.lines
  exact none _ fits

theorem Enumerates.mem_after {a : Nat}
    (all : Enumerates ns fun b => rel a b ∧ p.Fits second (.line b)) (y : Entity)
    : y ∈ Relation.lines ns ↔ p.Fits second y ∧ onLines rel (.line a) y := by
  rw [all.mem_lines]
  constructor
  · rintro ⟨b, ⟨holds, fits⟩, rfl⟩
    exact ⟨fits, onLines_line.mpr holds⟩
  · rintro ⟨fits, holds⟩
    obtain ⟨a', b, -, -, rfl⟩ := holds.lines
    exact ⟨b, ⟨onLines_line.mp holds, fits⟩, rfl⟩

theorem Enumerates.mem_before {b : Nat}
    (all : Enumerates ns fun a => rel a b ∧ p.Fits first (.line a)) (x : Entity)
    : x ∈ Relation.lines ns ↔ p.Fits first x ∧ onLines rel x (.line b) := by
  rw [all.mem_lines]
  constructor
  · rintro ⟨a, ⟨holds, fits⟩, rfl⟩
    exact ⟨fits, onLines_line.mpr holds⟩
  · rintro ⟨fits, holds⟩
    obtain ⟨a, b', -, rfl, -⟩ := holds.lines
    exact ⟨a, ⟨onLines_line.mp holds, fits⟩, rfl⟩

/-- What is found is what stands on either side of a relation. -/
def Program.AreSides (p : Program) (rel : Nat → Nat → Prop) (first second : Kind)
    (found : List Entity × List Entity)
    : Prop :=
  (∀ x, x ∈ found.1 ↔ p.Fits first x ∧ ∃ y, p.Fits second y ∧ onLines rel x y)
    ∧ ∀ y, y ∈ found.2 ↔ p.Fits second y ∧ ∃ x, p.Fits first x ∧ onLines rel x y

theorem mem_sides {firsts seconds : List Int}
    (left : Enumerates firsts fun a =>
      p.Fits first (.line a) ∧ ∃ b, p.Fits second (.line (b : Nat)) ∧ rel a b)
    (right : Enumerates seconds fun b =>
      p.Fits second (.line b) ∧ ∃ a, p.Fits first (.line (a : Nat)) ∧ rel a b)
    : p.AreSides rel first second (Relation.lines firsts, Relation.lines seconds) := by
  constructor
  · intro x
    rw [left.mem_lines]
    constructor
    · rintro ⟨a, ⟨fits, b, fits', holds⟩, rfl⟩
      exact ⟨fits, _, fits', onLines_line.mpr holds⟩
    · rintro ⟨fits, y, fits', holds⟩
      obtain ⟨a, b, -, rfl, rfl⟩ := holds.lines
      exact ⟨a, ⟨fits, b, fits', onLines_line.mp holds⟩, rfl⟩
  · intro y
    rw [right.mem_lines]
    constructor
    · rintro ⟨b, ⟨fits, a, fits', holds⟩, rfl⟩
      exact ⟨fits, _, fits', onLines_line.mpr holds⟩
    · rintro ⟨fits, x, fits', holds⟩
      obtain ⟨a, b, -, rfl, rfl⟩ := holds.lines
      exact ⟨b, ⟨fits, a, fits', onLines_line.mp holds⟩, rfl⟩

/-- No statement number stands for nothing. -/
theorem lines_filter_missing (ns : List Int)
    : (Relation.lines ns).filter (· ≠ .missing) = Relation.lines ns := by
  simp [Relation.lines, List.filter_map, Function.comp_def]

/-- What a relation between statements is to answer without `_`. -/
structure Relation.Modes.AnswersLines (m : Modes) (p : Program) (rel : Nat → Nat → Prop)
    (first second : Kind) (reason : Prop)
    : Prop where
  member {v w x y : Entity} (left : Numbered reason v x) (right : Numbered reason w y)
    : Answers reason (m.memberMember v w) fun holds => holds = true ↔ onLines rel x y
  after {v x : Entity} (left : Numbered reason v x)
    : Answers reason (m.memberOpen v second.label) fun found =>
        ∀ y, y ∈ found ↔ p.Fits second y ∧ onLines rel x y
  before {w y : Entity} (right : Numbered reason w y)
    : Answers reason (m.openMember first.label w) fun found =>
        ∀ x, x ∈ found.filter (· ≠ .missing) ↔ p.Fits first x ∧ onLines rel x y
  sides
    : Answers reason (m.openOpen first.label second.label) fun found =>
        (∀ x, x ∈ found.1 ↔ p.Fits first x ∧ ∃ y, p.Fits second y ∧ onLines rel x y)
        ∧ ∀ y, y ∈ found.2 ↔ p.Fits second y ∧ ∃ x, p.Fits first x ∧ onLines rel x y
  beforeFixed {w y : Entity} (right : Numbered reason w y) (fixed : w ≠ anything)
    : Answers reason (m.openFixed first.label w) fun found =>
        ∀ x, x ∈ found ↔ p.Fits first x ∧ onLines rel x y

/-- A thing without a number is of a kind that is not related to anything. -/
theorem Relation.Modes.AnswersLines.exact {m : Modes}
    (answers : m.AnswersLines p rel first second (p.Unrelated (onLines rel) first second))
    (named : p.Named) (short : p.Short)
    : m.Exact p (onLines rel) first second := by
  have onLeft {x v : Entity} (left : p.Askable first x) (stands : Stands v x)
      : Numbered (p.Unrelated (onLines rel) first second) v x :=
    left.numbered stands named short Program.unrelated_of_first
  have onRight {y w : Entity} (right : p.Askable second y) (stands : Stands w y)
      : Numbered (p.Unrelated (onLines rel) first second) w y :=
    right.numbered stands named short Program.unrelated_of_second
  constructor
  case member =>
    intro x y v w left right standsLeft standsRight
    exact answers.member (onLeft left standsLeft) (onRight right standsRight)
  case after =>
    intro x v left stands
    exact answers.after (onLeft left stands)
  case before =>
    intro y w right stands
    exact answers.before (onRight right stands)
  case sides => exact answers.sides
  case beforeFixed =>
    intro y w right stands fixed
    exact answers.beforeFixed (onRight right stands) fixed

end Numbers

end ProgramQuery

import ProgramQuery.Proofs.Relation.Meaning

/-! What it means that a relation is answered exactly, in each of the ways in which it can be asked.
A relation between statements cannot be asked about names, so an answer may also be refused where no
pair of things of the kinds asked about is related anyway.
-/

open Relation (TransGen)

namespace ProgramQuery

open Text ProgramQuery.Relation

section Answers

variable {α β : Type}

/-- An answer is as it should be, or there is a reason for giving none. -/
def Answers (reason : Prop) (asked : Asked α) (good : α → Prop) : Prop :=
  match asked with
  | .ok answer => good answer
  | .error _ => reason

variable {reason : Prop} {asked : Asked α} {good property : α → Prop} {f : α → Asked Bool}
  {xs : List α}

theorem Answers.ok {answer : α} (holds : good answer) : Answers reason (.ok answer) good :=
  holds

theorem Answers.mono {fine : α → Prop} (answers : Answers reason asked good)
    (weaker : ∀ answer, good answer → fine answer)
    : Answers reason asked fine := by
  cases asked with
  | ok answer => exact weaker answer answers
  | error _ => exact answers

theorem Answers.because {other : Prop} (answers : Answers reason asked good)
    (implies : reason → other)
    : Answers other asked good := by
  cases asked with
  | ok _ => exact answers
  | error _ => exact implies answers

theorem Answers.bind {f : α → Asked β} {fine : β → Prop} (first : Answers reason asked good)
    (next : ∀ answer, good answer → Answers reason (f answer) fine)
    : Answers reason (asked >>= f) fine := by
  cases asked with
  | ok answer => exact next answer first
  | error _ => exact first

theorem Answers.trivial (asked : Asked α) : Answers True asked fun _ => True := by
  cases asked <;> exact True.intro

theorem Answers.mapM {f : α → Asked β} {fine : α → β → Prop}
    (each : ∀ x ∈ xs, Answers reason (f x) (fine x))
    : Answers reason (xs.mapM f) (List.Forall₂ fine xs) := by
  induction xs with
  | nil => exact .ok .nil
  | cons x rest ih =>
    rw [List.mapM_cons]
    refine (each x (by simp)).bind fun y good => ?_
    exact (ih fun x member => each x (by simp [member])).bind fun ys all => .ok (.cons good all)

theorem Answers.anyM (each : ∀ x ∈ xs, Answers reason (f x) fun holds => holds = true ↔ property x)
    : Answers reason (xs.anyM f) fun holds => holds = true ↔ ∃ x ∈ xs, property x := by
  induction xs with
  | nil => exact .ok (by simp)
  | cons x rest ih =>
    rw [List.anyM]
    refine (each x (by simp)).bind fun holds exact_ => ?_
    cases holds with
    | true => exact .ok (by simpa using .inl (exact_.mp rfl))
    | false =>
      refine (ih fun x member => each x (by simp [member])).mono fun holds all => ?_
      rw [all]
      have : ¬ property x := fun does => by simpa using exact_.mpr does
      simp [this]

theorem Answers.allM (each : ∀ x ∈ xs, Answers reason (f x) fun holds => holds = true ↔ property x)
    : Answers reason (xs.allM f) fun holds => holds = true ↔ ∀ x ∈ xs, property x := by
  induction xs with
  | nil => exact .ok (by simp)
  | cons x rest ih =>
    rw [List.allM]
    refine (each x (by simp)).bind fun holds exact_ => ?_
    cases holds with
    | false =>
      refine .ok ?_
      have : ¬ property x := fun does => by simpa using exact_.mpr does
      simp [this]
    | true =>
      refine (ih fun x member => each x (by simp [member])).mono fun holds all => ?_
      rw [all]
      simp [exact_.mp rfl]

theorem Answers.filterM
    (each : ∀ x ∈ xs, Answers reason (f x) fun holds => holds = true ↔ property x)
    : Answers reason (xs.filterM f) fun kept => ∀ x, x ∈ kept ↔ x ∈ xs ∧ property x := by
  suffices auxiliary : ∀ kept : List α, Answers reason (xs.filterAuxM f kept)
      fun result => ∀ x, x ∈ result ↔ x ∈ kept ∨ (x ∈ xs ∧ property x) by
    refine (auxiliary []).bind fun result all => .ok fun x => ?_
    rw [List.mem_reverse, all]
    simp
  intro kept
  induction xs generalizing kept with
  | nil => exact .ok (by simp)
  | cons x rest ih =>
    rw [List.filterAuxM]
    refine (each x (by simp)).bind fun holds exact_ => ?_
    refine (ih (fun x member => each x (by simp [member])) _).mono fun result all y => ?_
    rw [all]
    cases holds with
    | true =>
      have : property x := exact_.mp rfl
      simp only [cond_true, List.mem_cons]
      grind
    | false =>
      have : ¬ property x := fun does => by simpa using exact_.mpr does
      simp only [cond_false, List.mem_cons]
      grind

end Answers

/-- A thing that is asked about, as itself or by its text. -/
def Stands (asked e : Entity) : Prop :=
  asked = e ∨ asked = e.byText

/-- What a relation may be asked about where a synonym of a kind can stand: a thing of the kind, or a
statement by its number. -/
def Program.Askable (p : Program) (kind : Kind) (e : Entity) : Prop :=
  p.Fits kind e ∨ p.Fits .statement e

/-- Nothing of the one kind is related to anything of the other. -/
def Program.Unrelated (p : Program) (rel : Entity → Entity → Prop) (first second : Kind) : Prop :=
  ∀ x y, p.Fits first x → p.Fits second y → ¬ rel x y

/-- All ways of asking a relation for synonyms of two kinds are answered exactly. A fixed argument
counts as a member. -/
structure Relation.Modes.Exact (m : Modes) (p : Program) (rel : Entity → Entity → Prop)
    (first second : Kind)
    : Prop where
  member {x y v w : Entity} (left : p.Askable first x) (right : p.Askable second y)
    (standsLeft : Stands v x) (standsRight : Stands w y)
    : Answers (p.Unrelated rel first second) (m.memberMember v w) fun holds =>
        holds = true ↔ rel x y
  after {x v : Entity} (left : p.Askable first x) (stands : Stands v x)
    : Answers (p.Unrelated rel first second) (m.memberOpen v second.label) fun found =>
        ∀ y, y ∈ found ↔ p.Fits second y ∧ rel x y
  before {y w : Entity} (right : p.Askable second y) (stands : Stands w y)
    : Answers (p.Unrelated rel first second) (m.openMember first.label w) fun found =>
        ∀ x, x ∈ found.filter (· ≠ .missing) ↔ p.Fits first x ∧ rel x y
  sides
    : Answers (p.Unrelated rel first second) (m.openOpen first.label second.label) fun found =>
        (∀ x, x ∈ found.1 ↔ p.Fits first x ∧ ∃ y, p.Fits second y ∧ rel x y)
        ∧ ∀ y, y ∈ found.2 ↔ p.Fits second y ∧ ∃ x, p.Fits first x ∧ rel x y
  beforeFixed {y w : Entity} (right : p.Askable second y) (stands : Stands w y)
    (fixed : w ≠ anything)
    : Answers (p.Unrelated rel first second) (m.openFixed first.label w) fun found =>
        ∀ x, x ∈ found ↔ p.Fits first x ∧ rel x y

/-- A fixed argument is asked about in the same way as a member. -/
structure Relation.Modes.Plain (m : Modes) : Prop where
  memberFixed {v w : Entity} (fixed : w ≠ anything) : m.memberFixed v w = m.memberMember v w
  fixedMember {v w : Entity} (fixed : v ≠ anything) : m.fixedMember v w = m.memberMember v w
  fixedOpen {v : Entity} (fixed : v ≠ anything) (type : String)
    : m.fixedOpen v type = m.memberOpen v type
  fixedFixed {v w : Entity} (fixed : v ≠ anything) (fixed' : w ≠ anything)
    : m.fixedFixed v w = m.memberMember v w

end ProgramQuery

import ProgramQuery.Proofs.Program.Nesting
import ProgramQuery.Relation.Next
import ProgramQuery.Relation.Parent

/-! Lists of lines that grow while they are gone through, on any table whose rows and columns are
numerals. They come to an end even where the table leads in circles, and then they hold what is reached
by one or more steps. Looking for one line on the way gives the same answer as looking at the whole list.
-/

open Relation (TransGen)

namespace ProgramQuery

open Text ProgramQuery.Relation

/-- A list that grows comes to its end, and each thing that is reached is found once. -/
def Gathers (closed : Option (List Int)) (found : List Int) (reached : Int → Prop) : Prop :=
  closed = some found ∧ found.Nodup ∧ ∀ line, line ∈ found ↔ reached line

section Tables

variable {α : Type} {g : Grid α} (canonical : g.Canonical)
include canonical

theorem Grid.Canonical.gathers_columns (x : Int)
    : Gathers (g.columnClosure? x) (g.columnClosure x) (TransGen g.Relates x) := by
  obtain ⟨found, closed, unique, reached, -⟩ := canonical.exists_columnClosure? x
  rw [Grid.columnClosure, closed]
  exact ⟨rfl, unique, reached⟩

theorem Grid.Canonical.gathers_rows (y : Int)
    : Gathers (g.rowClosure? y) (g.rowClosure y) (TransGen g.Relates · y) := by
  obtain ⟨found, closed, unique, reached, -⟩ := canonical.exists_rowClosure? y
  rw [Grid.rowClosure, closed]
  exact ⟨rfl, unique, reached⟩

theorem Grid.Canonical.mem_rowClosure_iff {x y : Int} : x ∈ g.rowClosure y ↔ y ∈ g.columnClosure x := by
  rw [(canonical.gathers_rows y).2.2, (canonical.gathers_columns x).2.2]

end Tables

namespace Relation

variable {kb : KnowledgeBase} {a b : Int}

theorem NextStar.meets_eq {step : Int → List Int} {found : List Int}
    (searched : ∀ sought, meets? step sought kb.next.turns (step a) [] = some (found.any sought))
    : NextStar.meets kb step (.line a) (.line b) = .ok (decide (b ∈ found)) := by
  have same : (found.any fun n => Entity.line n == .line b) = decide (b ∈ found) := by
    rw [Bool.eq_iff_iff]
    simp
  have number : numberOf (.line a) = .ok a := rfl
  simp only [NextStar.meets, number, bind, Except.bind, searched, same]
  rfl

theorem NextStar.isBefore_eq (canonical : kb.next.Canonical)
    : NextStar.isBefore kb (.line b) (.line a) = .ok (decide (a ∈ NextStar.predecessors kb b)) := by
  obtain ⟨found, closed, -, -, searched⟩ := canonical.exists_columnClosure? b
  rw [NextStar.isBefore, NextStar.meets_eq searched, NextStar.predecessors, Grid.columnClosure, closed,
    Option.getD_some]

theorem NextStar.isAfter_eq (canonical : kb.next.Canonical)
    : NextStar.isAfter kb (.line a) (.line b) = .ok (decide (b ∈ NextStar.successors kb a)) := by
  obtain ⟨found, closed, -, -, searched⟩ := canonical.exists_rowClosure? a
  rw [NextStar.isAfter, NextStar.meets_eq searched, NextStar.successors, Grid.rowClosure, closed,
    Option.getD_some]

/-- The closures of Next and Parent are exact, whatever the tables hold. Rows of Next are lines, and their
columns the lines before them.
-/
theorem closures_exact (next : kb.next.Canonical) (parent : kb.parent.Canonical) (a b : Int)
    : let step (x y : Int) : Prop := kb.next.Relates y x
      Gathers (kb.next.columnClosure? b) (NextStar.predecessors kb b) (TransGen step · b)
      ∧ Gathers (kb.next.rowClosure? a) (NextStar.successors kb a) (TransGen step a)
      ∧ Gathers (kb.parent.columnClosure? a) (ParentStar.allInside kb a)
        (TransGen kb.parent.Relates a)
      ∧ NextStar.isBefore kb (.line b) (.line a) = .ok (decide (a ∈ NextStar.predecessors kb b))
      ∧ NextStar.isAfter kb (.line a) (.line b) = .ok (decide (a ∈ NextStar.predecessors kb b))
      ∧ (b ∈ NextStar.successors kb a ↔ a ∈ NextStar.predecessors kb b) := by
  intro step
  have swapped {x y : Int} : TransGen step x y ↔ TransGen kb.next.Relates y x :=
    Relation.transGen_swap
  have both : b ∈ NextStar.successors kb a ↔ a ∈ NextStar.predecessors kb b :=
    next.mem_rowClosure_iff
  refine ⟨?_, ?_, parent.gathers_columns a, NextStar.isBefore_eq next, ?_, both⟩
  · simp only [swapped]
    exact next.gathers_columns b
  · simp only [Gathers, swapped]
    exact next.gathers_rows a
  · rw [NextStar.isAfter_eq next, decide_eq_decide.mpr both]

/-- A table of Next with a circle and a line that comes after itself. -/
theorem closures_exact_on_circles
    : let kb : KnowledgeBase := ⟨[], [], [], .empty, .empty, .empty, .ofLines [(1, 2), (2, 3)], .empty,
        .empty, .ofLines [(2, 1), (3, 2), (2, 3), (1, 1)]⟩
      NextStar.predecessors kb 2 = [1, 3, 2] ∧ TransGen (fun x y => kb.next.Relates y x) 2 2
      ∧ ¬ TransGen (fun x y => kb.next.Relates y x) 3 1 := by
  intro kb
  have canonical {pairs : List (Nat × Nat)}
      (short : ∀ pair ∈ pairs, pair.1 < 10 ^ mostDigits ∧ pair.2 < 10 ^ mostDigits)
      : (Grid.ofLines pairs).Canonical :=
    (Grid.tabulates_ofLines (fun _ _ => Iff.rfl) fun a b => short (a, b)).canonical
  have next : kb.next.Canonical := canonical (by decide +kernel)
  have parent : kb.parent.Canonical := canonical (by decide +kernel)
  have two : NextStar.predecessors kb 2 = [1, 3, 2] := by decide +kernel
  have one : NextStar.predecessors kb 1 = [1] := by decide +kernel
  obtain ⟨⟨-, -, before⟩, -⟩ := closures_exact next parent 2 2
  obtain ⟨⟨-, -, before'⟩, -⟩ := closures_exact next parent 3 1
  refine ⟨two, (before 2).mp (by rw [two]; decide), fun path => ?_⟩
  have member := (before' 3).mpr path
  rw [one] at member
  exact absurd member (by decide)

end Relation

end ProgramQuery

import ProgramQuery.Proofs.Relation.StarModes

/-! Next is answered exactly between any statements, with and without a star. -/

open Relation (TransGen)

namespace ProgramQuery

open Text ProgramQuery.Relation

section

variable {p : Program} {knowledge : KnowledgeBase} (describes : knowledge.Describes p)
  (named : p.Named) (short : p.Short) (filled : p.Filled) {rel : Nat → Nat → Prop}
  {successors predecessors : Int → List Int} {holds : Entity → Entity → Asked Bool}

theorem Program.relates_step : p.Relates p.Step := by
  rintro a b ⟨start, procedure, member, step⟩
  have spans := step.spans
  have inside {line : Nat} (lower : start ≤ line) (upper : line < start + Stmt.sizes procedure.body)
      : ∃ s, (line, s) ∈ p.listing := by
    obtain ⟨s, listed⟩ := Stmt.exists_mem_listings_iff.mpr ⟨lower, upper⟩
    exact ⟨s, List.mem_flatMap.mpr ⟨_, member, listed⟩⟩
  exact ⟨inside spans.1.1 spans.1.2, inside spans.2.1 spans.2.2⟩

include describes short filled in
theorem KnowledgeBase.Describes.next_tabulates
    : knowledge.next.Tabulates fun after before => p.Step before after :=
  describes.next ▸ Program.nextGrid_tabulates short filled

/-- The table of steps has the same statements on its sides as either step relation. -/
theorem Relation.stepModes_sides {reason : Prop} {type type' : String}
    (table : knowledge.next.Tabulates fun after before => p.Step before after)
    (relates : p.Relates rel)
    (left : ∀ a, (∃ b, rel a b) ↔ ∃ b, p.Step a b)
    (right : ∀ b, (∃ a, rel a b) ↔ ∃ a, p.Step a b)
    : Answers reason ((stepModes knowledge successors predecessors holds).openOpen type type')
        (p.AreSides rel .statement .statement) := by
  obtain ⟨rows, same, all⟩ := table.rowNumbers_spec
  obtain ⟨columns, same', all'⟩ := table.columnNumbers_spec
  simp only [stepModes, allPredecessors, allSuccessors, same, same']
  refine .ok (mem_sides (all'.congr fun a => ?_) (all.congr fun b => ?_))
  · rw [← left, relates.left_iff]
  · rw [← right, relates.right_iff]

/-- Both step relations find the statements after and before a given one, and both have the same
statements on their sides. -/
theorem Relation.stepModes_answersLines {reason : Prop}
    (table : knowledge.next.Tabulates fun after before => p.Step before after)
    (relates : p.Relates rel)
    (left : ∀ a, (∃ b, rel a b) ↔ ∃ b, p.Step a b)
    (right : ∀ b, (∃ a, rel a b) ↔ ∃ a, p.Step a b)
    (afters : ∀ a : Nat, Enumerates (successors a) (rel a))
    (befores : ∀ b : Nat, Enumerates (predecessors b) fun a => rel a b)
    (member : ∀ {x y v w : Entity}, Numbered reason v x → Numbered reason w y →
      Answers reason (holds v w) fun holds => holds = true ↔ onLines rel x y)
    : (stepModes knowledge successors predecessors holds).AnswersLines p rel .statement .statement
        reason := by
  have before {w y : Entity} (right : Numbered reason w y)
      : Answers reason (do return lines (predecessors (← Relation.numberOf w)))
          fun found => found.filter (· ≠ .missing) = found
            ∧ ∀ x, x ∈ found ↔ p.Fits .statement x ∧ onLines rel x y := by
    refine .read right ?_
    rintro b rfl
    exact .ok ⟨lines_filter_missing _, ((befores b).congr fun a =>
      (and_iff_left_of_imp fun holds => (relates.fits holds).1).symm).mem_before⟩
  constructor
  case member => exact member
  case after =>
    intro v x left
    refine .read left ?_
    rintro a rfl
    exact .ok ((afters a).congr fun b =>
      (and_iff_left_of_imp fun holds => (relates.fits holds).2).symm).mem_after
  case before =>
    intro w y right
    exact (before right).mono fun found exact_ x => by rw [exact_.1, exact_.2]
  case sides => exact stepModes_sides table relates left right
  case beforeFixed =>
    intro w y right fixed
    simp only [stepModes, if_neg fixed]
    exact (before right).mono fun found exact_ => exact_.2

theorem Relation.stepModes_plain : (stepModes knowledge successors predecessors holds).Plain := by
  constructor <;> intros <;> simp_all [stepModes]

section Table

variable {reason : Prop} (table : knowledge.next.Tabulates fun after before => p.Step before after)
include table

theorem Relation.Next.modes_answersLines
    : (Next.modes knowledge).AnswersLines p p.Step .statement .statement reason := by
  refine stepModes_answersLines table Program.relates_step (fun _ => .rfl) (fun _ => .rfl)
    table.rowsAt_spec table.columnsAt_spec fun left right => ?_
  refine .read left ?_
  rintro a rfl
  refine .read right ?_
  rintro b rfl
  exact .ok (by rw [table.markedAt_iff, onLines_line])

theorem Grid.Tabulates.predecessors_spec (b : Nat)
    : Enumerates (NextStar.predecessors knowledge b) fun a => TransGen p.Step a b :=
  (table.columnClosure_spec b).congr fun _ => Relation.transGen_swap

theorem Grid.Tabulates.successors_spec (a : Nat)
    : Enumerates (NextStar.successors knowledge a) (TransGen p.Step a) :=
  (table.rowClosure_spec a).congr fun _ => Relation.transGen_swap

theorem Relation.NextStar.modes_answersLines
    : (NextStar.modes knowledge).AnswersLines p (TransGen p.Step) .statement .statement reason := by
  refine stepModes_answersLines table Program.relates_step.transGen (fun _ => transGen_left_iff)
    (fun _ => transGen_right_iff) table.successors_spec table.predecessors_spec fun left right => ?_
  refine .read right ?_
  rintro b rfl
  refine .read left ?_
  rintro a rfl
  refine .ok ?_
  rw [List.contains_iff_mem, onLines_line]
  exact (table.predecessors_spec b).mem_iff

end Table

include describes named short filled

theorem Relation.Next.modes_exact
    : (Next.modes knowledge).Exact p (onLines p.Step) .statement .statement :=
  (Next.modes_answersLines (describes.next_tabulates short filled)).exact named short

theorem Relation.NextStar.modes_exact
    : (NextStar.modes knowledge).Exact p (onLines (TransGen p.Step)) .statement .statement :=
  (NextStar.modes_answersLines (describes.next_tabulates short filled)).exact named short

end

end ProgramQuery

import ProgramQuery.Proofs.Relation.LineAnswers

/-! The ways of asking that the starred relations have in common. -/

open Relation (TransGen)

namespace ProgramQuery

open Text ProgramQuery.Relation

theorem transGen_left_iff {α : Type} {rel : α → α → Prop} {a : α}
    : (∃ b, TransGen rel a b) ↔ ∃ b, rel a b := by
  constructor
  · rintro ⟨b, path⟩
    obtain ⟨c, step, -⟩ := TransGen.head'_iff.mp path
    exact ⟨c, step⟩
  · exact fun ⟨b, step⟩ => ⟨b, .single step⟩

theorem transGen_right_iff {α : Type} {rel : α → α → Prop} {b : α}
    : (∃ a, TransGen rel a b) ↔ ∃ a, rel a b := by
  constructor
  · rintro ⟨a, path⟩
    obtain ⟨c, -, step⟩ := TransGen.tail'_iff.mp path
    exact ⟨c, step⟩
  · exact fun ⟨a, step⟩ => ⟨a, .single step⟩

section

variable {p : Program} {knowledge : KnowledgeBase} {first second : Kind} {reason : Prop}
  {g : Grid Int} {rel : Nat → Nat → Prop} (describes : knowledge.Describes p)

/-- A relation between statements of a program. -/
def Program.Relates (p : Program) (rel : Nat → Nat → Prop) : Prop :=
  ∀ a b : Nat, rel a b → (∃ s, (a, s) ∈ p.listing) ∧ ∃ s, (b, s) ∈ p.listing

theorem Program.Relates.transGen (relates : p.Relates rel) : p.Relates (TransGen rel) := by
  intro a b path
  obtain ⟨c, step⟩ := transGen_left_iff.mp ⟨b, path⟩
  obtain ⟨d, step'⟩ := transGen_right_iff.mp ⟨a, path⟩
  exact ⟨(relates a c step).1, (relates d b step').2⟩

theorem Program.Relates.fits (relates : p.Relates rel) {a b : Nat} (holds : rel a b)
    : p.Fits .statement (.line a) ∧ p.Fits .statement (.line b) :=
  ⟨Program.fits_statement_line.mpr (relates a b holds).1,
    Program.fits_statement_line.mpr (relates a b holds).2⟩

theorem Program.Relates.left_iff (relates : p.Relates rel) {a : Nat}
    : (∃ b, rel a b)
      ↔ p.Fits .statement (.line a) ∧ ∃ b, p.Fits .statement (.line (b : Nat)) ∧ rel a b := by
  constructor
  · rintro ⟨b, holds⟩
    exact ⟨(relates.fits holds).1, b, (relates.fits holds).2, holds⟩
  · rintro ⟨-, b, -, holds⟩
    exact ⟨b, holds⟩

theorem Program.Relates.right_iff (relates : p.Relates rel) {b : Nat}
    : (∃ a, rel a b)
      ↔ p.Fits .statement (.line b) ∧ ∃ a, p.Fits .statement (.line (a : Nat)) ∧ rel a b := by
  constructor
  · rintro ⟨a, holds⟩
    exact ⟨(relates.fits holds).2, a, (relates.fits holds).1, holds⟩
  · rintro ⟨-, a, -, holds⟩
    exact ⟨a, holds⟩

/-- Modes that find everything after a statement by `down` and everything before it by `up`. -/
structure Relation.Modes.Star (m : Modes) (knowledge : KnowledgeBase) (g : Grid Int)
    (down up : Int → List Int)
    : Prop where
  memberMember : m.memberMember = fun v w => do
    let n ← Relation.numberOf w
    return (down (← Relation.numberOf v)).contains n
  memberOpen : m.memberOpen = fun v type => do
    let fit ← if type = anyStatement then g.columnNumbers else pure (knowledge.linesOfKind type)
    return lines (common (down (← Relation.numberOf v)) fit)
  openMember : m.openMember = fun type w => do
    let fit ← if type = anyStatement then g.rowNumbers else pure (knowledge.linesOfKind type)
    return lines (common (up (← Relation.numberOf w)) fit)
  openOpen : m.openOpen = fun left right => do
    if left = anyStatement then
      if right = anyStatement then
        return (lines (← g.rowNumbers), lines (← g.columnNumbers))
      let seconds := (knowledge.linesOfKind right).filter fun n => !(up n).isEmpty
      return (lines (seconds.flatMap up).eraseDups, lines seconds)
    else
      let fit (n : Int) := fitting knowledge right (down n)
      let firsts := (knowledge.linesOfKind left).filter fun n => !(fit n).isEmpty
      return (lines firsts, lines (firsts.flatMap fit).eraseDups)
  openFixed : ∀ type w, w ≠ anything → m.openFixed type w = m.openMember type w

section Star

variable (table : g.Tabulates rel) (relates : p.Relates rel) {down up : Int → List Int}
  (downs : ∀ a : Nat, Enumerates (down a) (TransGen rel a))
  (ups : ∀ b : Nat, Enumerates (up b) fun a => TransGen rel a b)

omit table relates in
include describes in
/-- The statements that an open argument of a kind can be, among those on its side of the relation. -/
theorem Answers.fitSide {β : Type} {good : β → Prop} {side : Nat → Prop} {numbers : Asked (List Int)}
    (spec : ∃ ns, numbers = .ok ns ∧ Enumerates ns side)
    (fits : ∀ n, side n → p.Fits .statement (.line n)) (kind : Kind) {next : List Int → Asked β}
    (then_ : ∀ fit, (∀ n : Nat, side n → ((n : Int) ∈ fit ↔ p.Fits kind (.line n))) →
      Answers reason (next fit) good)
    : Answers reason
        (if kind.label = anyStatement then numbers >>= next
          else pure (knowledge.linesOfKind kind.label) >>= next)
        good := by
  by_cases special : kind = .statement
  · subst special
    rw [if_pos (Kind.label_eq_anyStatement.mpr rfl)]
    obtain ⟨ns, same, all⟩ := spec
    rw [same]
    exact then_ ns fun n isSide => iff_of_true (all.mem_iff.mpr isSide) (fits n isSide)
  · rw [if_neg (by simpa using special)]
    exact then_ _ fun n _ => (describes.enumerates_linesOfKind special).mem_iff

theorem Enumerates.common_of_mem {xs fit : List Int} {property other : Nat → Prop}
    (all : Enumerates xs property) (agree : ∀ n : Nat, property n → ((n : Int) ∈ fit ↔ other n))
    : Enumerates (ProgramQuery.common xs fit) fun n => property n ∧ other n := by
  intro n
  rw [mem_common, all]
  constructor
  · rintro ⟨⟨line, holds, rfl⟩, member⟩
    exact ⟨line, ⟨holds, (agree line holds).mp member⟩, rfl⟩
  · rintro ⟨line, ⟨holds, holds'⟩, rfl⟩
    exact ⟨⟨line, holds, rfl⟩, (agree line holds).mpr holds'⟩

include describes table relates downs ups in
theorem Answers.starSides
    : Answers reason
        (do
          if first.label = anyStatement then
            if second.label = anyStatement then
              return (lines (← g.rowNumbers), lines (← g.columnNumbers))
            let seconds := (knowledge.linesOfKind second.label).filter fun n => !(up n).isEmpty
            return (lines (seconds.flatMap up).eraseDups, lines seconds)
          else
            let fit (n : Int) := fitting knowledge second.label (down n)
            let firsts := (knowledge.linesOfKind first.label).filter fun n => !(fit n).isEmpty
            return (lines firsts, lines (firsts.flatMap fit).eraseDups))
        (p.AreSides (TransGen rel) first second) := by
  have fits := fun {a b : Nat} (path : TransGen rel a b) => relates.transGen.fits path
  by_cases special : first = .statement
  · subst special
    rw [if_pos (Kind.label_eq_anyStatement.mpr rfl)]
    by_cases special : second = .statement
    · subst special
      rw [if_pos (Kind.label_eq_anyStatement.mpr rfl)]
      obtain ⟨rows, same, all⟩ := table.rowNumbers_spec
      obtain ⟨columns, same', all'⟩ := table.columnNumbers_spec
      rw [same, same']
      refine .ok (mem_sides (all.congr fun a => ?_) (all'.congr fun b => ?_))
      · rw [← transGen_left_iff, relates.transGen.left_iff]
      · rw [← transGen_right_iff, relates.transGen.right_iff]
    · rw [if_neg (by simpa using special)]
      have seconds : Enumerates
          ((knowledge.linesOfKind second.label).filter fun n => !(up n).isEmpty) _ :=
        (describes.enumerates_linesOfKind special).filter fun b _ => (ups b).isEmpty
      refine .ok (mem_sides (((seconds.flatMap fun b _ => ups b).eraseDups).congr fun a => ?_)
        (seconds.congr fun b => ?_))
      · grind
      · grind
  · rw [if_neg (by simpa using special)]
    have fit (a : Nat) := (downs a).fitting describes
      (fun b path => (relates.transGen a b path).2) second
    have firsts : Enumerates ((knowledge.linesOfKind first.label).filter fun n =>
        !(fitting knowledge second.label (down n)).isEmpty) _ :=
      (describes.enumerates_linesOfKind special).filter fun a _ => (fit a).isEmpty
    refine .ok (mem_sides (firsts.congr fun a => ?_)
      (((firsts.flatMap fun a _ => fit a).eraseDups).congr fun b => ?_))
    · grind
    · grind

include describes table relates downs ups in
/-- Modes that find everything before and after a statement answer the starred relation. -/
theorem Relation.Modes.Star.answersLines {m : Modes} (star : m.Star knowledge g down up)
    : m.AnswersLines p (TransGen rel) first second reason := by
  have before {w y : Entity} (right : Numbered reason w y)
      : Answers reason (m.openMember first.label w) fun found =>
          found.filter (· ≠ .missing) = found
          ∧ ∀ x, x ∈ found ↔ p.Fits first x ∧ onLines (TransGen rel) x y := by
    rw [star.openMember]
    refine .fitSide describes table.rowNumbers_spec (fun a isSide => (relates.left_iff.mp isSide).1) first
      fun fit agree => .read right ?_
    rintro b rfl
    refine .ok ⟨lines_filter_missing _, ((ups b).common_of_mem fun a path => agree a ?_).mem_before⟩
    exact transGen_left_iff.mp ⟨b, path⟩
  constructor
  case member =>
    intro v w x y left right
    rw [star.memberMember]
    refine .read right ?_
    rintro b rfl
    refine .read left ?_
    rintro a rfl
    refine .ok ?_
    rw [List.contains_iff_mem, onLines_line]
    exact (downs a).mem_iff
  case after =>
    intro v x left
    rw [star.memberOpen]
    refine .fitSide describes table.columnNumbers_spec (fun b isSide => (relates.right_iff.mp isSide).1)
      second fun fit agree => .read left ?_
    rintro a rfl
    refine .ok ((downs a).common_of_mem fun b path => agree b ?_).mem_after
    exact transGen_right_iff.mp ⟨a, path⟩
  case before =>
    intro w y right
    exact (before right).mono fun found exact_ x => by rw [exact_.1, exact_.2]
  case sides =>
    rw [star.openOpen]
    exact .starSides describes table relates downs ups
  case beforeFixed =>
    intro w y right fixed
    rw [star.openFixed _ _ fixed]
    exact (before right).mono fun found exact_ => exact_.2

end Star

end

end ProgramQuery

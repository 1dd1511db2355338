import ProgramQuery.Proofs.Relation.Agreement
import ProgramQuery.Proofs.Relation.Exactness

/-! The ways of asking Follows and Next that do not agree. Follows with `_` on the left of a known
statement looks for a statement after it, not before it. Next and Next* answer for statements of any
type, whatever types their arguments have.
-/

open Relation (TransGen)

namespace ProgramQuery

open Text ProgramQuery.Relation

theorem Program.Relates.statements {p : Program} {rel : Nat → Nat → Prop} {x y : Entity}
    (relates : p.Relates rel) (holds : onLines rel x y)
    : p.Fits .statement x ∧ p.Fits .statement y := by
  obtain ⟨a, b, related, rfl, rfl⟩ := holds.lines
  exact relates.fits related

/-- The same ways of asking, but with `_` on the left of a known statement it is asked what comes before
that statement.
-/
def Relation.Modes.lookingBack (m : Modes) : Modes :=
  let precedes (w : Entity) : Asked Bool := do return !(← m.openMember anyStatement w).isEmpty
  { m with
    fixedMember := fun v w => if v = anything then precedes w else m.fixedMember v w
    fixedFixed := fun v w =>
      if v = anything ∧ w ≠ anything then precedes w else m.fixedFixed v w }

section Follows

variable {p : Program} {knowledge : KnowledgeBase} {first second : Kind} {w : Entity} {b : Nat}
  (describes : knowledge.Describes p) (table : knowledge.follows.Tabulates p.Follows)

theorem Relation.Follows.lookingBack_plain : (Follows.modes knowledge).lookingBack.Plain := by
  constructor <;> intros <;> simp_all [Modes.lookingBack, Follows.modes]

include describes table in
theorem Relation.Follows.lookingBack_answersLines {reason : Prop}
    : (Follows.modes knowledge).lookingBack.AnswersLines p p.Follows first second reason :=
  let answers := modes_answersLines describes table
  ⟨answers.member, answers.after, answers.before, answers.sides, answers.beforeFixed⟩

include table in
theorem firstRow?_isSome_iff
    : (knowledge.follows.firstRow? b).isSome = true ↔ ∃ a, p.Follows a b := by
  simp only [Option.isSome_iff_exists, follows_firstRow? table, onNumbers_natCast]
  exact ⟨fun ⟨_, a, holds, _⟩ => ⟨a, holds⟩, fun ⟨a, holds⟩ => ⟨a, a, holds, rfl⟩⟩

include describes table in
theorem Relation.Follows.lookingBack_answersAnything
    : (Follows.modes knowledge).lookingBack.AnswersAnything p p.Follows first second := by
  have inside {a b : Nat} (holds : p.Follows a b) := Program.relates_follows a b holds
  constructor
  case followed =>
    intro v a reads
    exact .readOff reads (.ok (isFollowed_iff table a))
  case preceded =>
    intro w b reads
    have right : Numbered False w (.line b) := ReadsLine.numbered ⟨b, reads, rfl⟩
    have before := @before_spec p knowledge .statement _ w _ describes table right
    refine before.bind fun found all => .ok ?_
    rw [hasMembers_iff, ← onLines_line_right]
    refine exists_congr fun x => (all.2 x).trans (and_iff_right_of_imp fun holds => ?_)
    exact (Program.relates_follows.statements holds).1
  case lefts =>
    obtain ⟨rows, same, all⟩ := table.rowNumbers_spec
    have fit := all.fitting describes (fun a any => (inside any.choose_spec).1) first
    simp only [Modes.lookingBack, Follows.modes, if_pos, same]
    exact .ok fun x => by simp only [fit.mem_lines, and_assoc]
  case rights =>
    simp only [Modes.lookingBack, Follows.modes, if_pos]
    by_cases special : second = .statement
    · subst special
      obtain ⟨columns, same, all⟩ := table.columnNumbers_spec
      have fit : Enumerates columns fun b => (∃ a, p.Follows a b) ∧ p.Fits .statement (.line b) :=
        all.congr fun b => (and_iff_left_of_imp fun any =>
          Program.fits_statement_line.mpr (inside any.choose_spec).2).symm
      rw [if_pos (Kind.label_eq_anyStatement.mpr rfl), same]
      exact .ok fun y => by simp only [fit.mem_lines, and_assoc]
    · rw [if_neg (by simpa using special)]
      have fit := @Enumerates.filter _ _ _ (describes.enumerates_linesOfKind special)
        (fun n => (knowledge.follows.firstRow? n).isSome) fun b _ => firstRow?_isSome_iff table
      exact .ok fun y => by simp only [fit.mem_lines, and_assoc, and_left_comm]
  case some => exact table.inhabited_spec
  case fixedLeft =>
    intro v fixed
    simp [Modes.lookingBack, Follows.modes, fixed]
  case fixedRight =>
    intro w fixed
    simp [Modes.lookingBack, fixed]

include describes table in
theorem Relation.Follows.lookingBack_agree
    : (Follows.modes knowledge).lookingBack.Agree p (onLines p.Follows) ReadsLine ReadsLine (· = ·)
        first second :=
  (lookingBack_answersLines describes table).agree (lookingBack_answersAnything describes table)
    lookingBack_plain

end Follows

/-- However Follows is asked about an accepted program, the answer is the truth value or a projection of
one relation, with one exception. With `_` on the left of a known statement it would have to be asked
what comes before that statement; instead the answer says whether anything comes after it.
-/
theorem Analysis.follows_modes_agree {text : String} {a : Analysis}
    (accepted : Analysis.ofText text = .ok a) (short : a.program.Short) (first second : Kind)
    : (Follows.modes a.knowledge).lookingBack.Agree a.program (onLines a.program.Follows)
        ReadsLine ReadsLine (· = ·) first second
      ∧ ∀ (w : Entity) (b : Nat), Relation.numberOf w = .ok (b : Int) →
          (Follows.modes a.knowledge).fixedFixed anything w
            = (Follows.modes a.knowledge).fixedMember anything w
          ∧ Answers False ((Follows.modes a.knowledge).fixedMember anything w) fun holds =>
              holds = true ↔ ∃ c, a.program.Follows b c := by
  have describes := Analysis.describes accepted
  have table := describes.follows_tabulates short
  refine ⟨Follows.lookingBack_agree describes table, fun w b reads => ⟨?_, ?_⟩⟩
  · simp [Follows.modes, ne_anything_of_numberOf reads]
  · exact .readOff reads (.ok (isFollowed_iff table b))

set_option maxRecDepth 10000 in
/-- A loop after an assignment, with a list of its own inside. -/
theorem Analysis.follows_modes_agree_loop
    : ∃ a, Analysis.ofText "procedure p \x7b x = 1; while i \x7b y = 2; z = 3; \x7d \x7d" = .ok a
      ∧ a.program.Short
      ∧ (Follows.modes a.knowledge).memberMember (.line 3) (.name "4") = .ok true
      ∧ (Follows.modes a.knowledge).lookingBack.Agree a.program (onLines a.program.Follows)
        ReadsLine ReadsLine (· = ·) .assignment .loop := by
  refine exists_ok_of (fun a => a.program.Short
      ∧ (Follows.modes a.knowledge).memberMember (.line 3) (.name "4") = .ok true)
    (by decide +kernel) fun a source ⟨short, follows⟩ => ?_
  exact ⟨short, follows,
    (Analysis.follows_modes_agree source short .assignment .loop).1⟩

set_option maxRecDepth 10000 in
/-- The last statement of a list follows another one, and is found where it is asked for, but not where
it is already known.
-/
theorem Analysis.follows_modes_disagree
    : ∃ a, Analysis.ofText "procedure p \x7b x = 1; y = 2; \x7d" = .ok a ∧ a.program.Short
      ∧ (Follows.modes a.knowledge).fixedMember anything (.line 2) = .ok false
      ∧ (Follows.modes a.knowledge).fixedFixed anything (.line 2) = .ok false
      ∧ (Follows.modes a.knowledge).fixedOpen anything anyStatement = .ok [.line 2]
      ∧ onLines a.program.Follows (.line 1) (.line 2) := by
  refine exists_ok_of (fun a => a.program.Short
      ∧ (Follows.modes a.knowledge).fixedMember anything (.line 2) = .ok false
      ∧ (Follows.modes a.knowledge).fixedFixed anything (.line 2) = .ok false
      ∧ (Follows.modes a.knowledge).fixedOpen anything anyStatement = .ok [.line 2]
      ∧ a.knowledge.follows.markedAt 1 2 = true)
    (by decide +kernel) fun a source ⟨short, known, fixed, asked, marked⟩ => ?_
  have table := (Analysis.describes source).follows_tabulates short
  exact ⟨short, known, fixed, asked,
    onLines_line.mpr ((table.markedAt_iff (a := 1) (b := 2)).mp marked)⟩

/-- The types of open arguments play no part. -/
structure Relation.Modes.Untyped (m : Modes) : Prop where
  memberOpen (v : Entity) (type : String) : m.memberOpen v type = m.memberOpen v anyStatement
  openMember (type : String) (w : Entity) : m.openMember type w = m.openMember anyStatement w
  openOpen (type type' : String) : m.openOpen type type' = m.openOpen anyStatement anyStatement
  openFixed (type : String) (w : Entity) : m.openFixed type w = m.openFixed anyStatement w
  fixedOpen (v : Entity) (type : String) : m.fixedOpen v type = m.fixedOpen v anyStatement

section Untyped

variable {p : Program} {rel left right : Entity → Entity → Prop} {m : Modes} {first second : Kind}

/-- Answers that do not depend on types are right for just those types that everything related has. -/
theorem Relation.Modes.Untyped.agree_iff (untyped : m.Untyped)
    (statements : ∀ x y, rel x y → p.Fits .statement x ∧ p.Fits .statement y)
    (agree : m.Agree p rel left right (· = ·) .statement .statement)
    : m.Agree p rel left right (· = ·) first second
      ↔ ∀ x y, rel x y → p.Fits first x ∧ p.Fits second y := by
  constructor
  · intro typed x y holds
    have sides := agree.openOpen
    have sides' := typed.openOpen
    rw [untyped.openOpen] at sides'
    change Answers False (m.openOpen anyStatement anyStatement) _ at sides
    generalize m.openOpen anyStatement anyStatement = asked at sides sides'
    cases asked with
    | error fault => exact sides.elim
    | ok found =>
      obtain ⟨fits, fits'⟩ := statements x y holds
      obtain ⟨_, member, rfl⟩ := sides.1.2 x ⟨fits, y, fits', holds⟩
      obtain ⟨_, member', rfl⟩ := sides.2.2 y ⟨fits', _, fits, holds⟩
      obtain ⟨_, rfl, fits, -⟩ := sides'.1.1 _ member
      obtain ⟨_, rfl, fits', -⟩ := sides'.2.1 _ member'
      exact ⟨fits, fits'⟩
  · intro typed
    have onLeft {x y : Entity} (holds : rel x y) : p.Fits .statement x ↔ p.Fits first x :=
      iff_of_true (statements x y holds).1 (typed x y holds).1
    have onRight {x y : Entity} (holds : rel x y) : p.Fits .statement y ↔ p.Fits second y :=
      iff_of_true (statements x y holds).2 (typed x y holds).2
    constructor
    case memberMember => exact agree.memberMember
    case memberFixed => exact agree.memberFixed
    case fixedMember => exact agree.fixedMember
    case fixedFixed => exact agree.fixedFixed
    case memberOpen =>
      intro v x stands
      rw [untyped.memberOpen]
      exact (agree.memberOpen stands).mono fun found tells =>
        tells.congr fun y => and_congr_left onRight
    case openMember =>
      intro w y stands
      rw [untyped.openMember]
      exact (agree.openMember stands).mono fun found tells =>
        tells.congr fun x => and_congr_left onLeft
    case openOpen =>
      rw [untyped.openOpen]
      refine agree.openOpen.mono fun found tells => ⟨tells.1.congr fun x => ?_, tells.2.congr fun y => ?_⟩
      · exact ⟨fun ⟨_, y, _, holds⟩ => ⟨(typed x y holds).1, y, (typed x y holds).2, holds⟩,
          fun ⟨_, y, _, holds⟩ => ⟨(statements x y holds).1, y, (statements x y holds).2, holds⟩⟩
      · exact ⟨fun ⟨_, x, _, holds⟩ => ⟨(typed x y holds).2, x, (typed x y holds).1, holds⟩,
          fun ⟨_, x, _, holds⟩ => ⟨(statements x y holds).2, x, (statements x y holds).1, holds⟩⟩
    case openFixed =>
      intro w meaning
      rw [untyped.openFixed]
      exact (agree.openFixed meaning).mono fun found tells =>
        tells.congr fun x => and_congr_left fun ⟨y, _, holds⟩ => onLeft holds
    case fixedOpen =>
      intro v meaning
      rw [untyped.fixedOpen]
      exact (agree.fixedOpen meaning).mono fun found tells =>
        tells.congr fun y => and_congr_left fun ⟨x, _, holds⟩ => onRight holds

end Untyped

section Steps

variable {p : Program} {knowledge : KnowledgeBase} {rel : Nat → Nat → Prop}
  {successors predecessors : Int → List Int} {holds : Entity → Entity → Asked Bool}

theorem Relation.stepModes_untyped : (stepModes knowledge successors predecessors holds).Untyped := by
  constructor <;> intros <;> rfl

/-- Both step relations find the statements after and before a given one, and both have the same
statements on their sides. -/
theorem Relation.stepModes_agree (table : knowledge.next.Tabulates fun after before => p.Step before after)
    (relates : p.Relates rel) (left : ∀ a, (∃ b, rel a b) ↔ ∃ b, p.Step a b)
    (right : ∀ b, (∃ a, rel a b) ↔ ∃ a, p.Step a b) (afters : ∀ a : Nat, Enumerates (successors a) (rel a))
    (befores : ∀ b : Nat, Enumerates (predecessors b) fun a => rel a b)
    (answers : (stepModes knowledge successors predecessors holds).AnswersLines p rel .statement
      .statement False)
    : (stepModes knowledge successors predecessors holds).Agree p (onLines rel) ReadsLine ReadsLine
        (· = ·) .statement .statement := by
  have fits {a b : Nat} (holds : rel a b) := relates.fits holds
  obtain ⟨rows, same, all⟩ := table.rowNumbers_spec
  obtain ⟨columns, same', all'⟩ := table.columnNumbers_spec
  have firsts : Enumerates columns fun a => (∃ b, rel a b) ∧ p.Fits .statement (.line a) :=
    all'.congr fun a => (left a).symm.trans
      (and_iff_left_of_imp fun any => (fits any.choose_spec).1).symm
  have seconds : Enumerates rows fun b => (∃ a, rel a b) ∧ p.Fits .statement (.line b) :=
    all.congr fun b => (right b).symm.trans
      (and_iff_left_of_imp fun any => (fits any.choose_spec).2).symm
  refine answers.agree ?_ stepModes_plain
  constructor
  case followed =>
    intro v a reads
    exact .readOff reads (.ok (afters a).isEmpty)
  case preceded =>
    intro w b reads
    exact .readOff reads (.ok (befores b).isEmpty)
  case lefts =>
    simp only [stepModes, allPredecessors, same', if_pos]
    exact .ok fun x => by simp only [firsts.mem_lines, and_assoc]
  case rights =>
    simp only [stepModes, allSuccessors, same, if_pos]
    exact .ok fun y => by simp only [seconds.mem_lines, and_assoc]
  case some =>
    have answer : someStep knowledge = .ok (!columns.isEmpty && !rows.isEmpty) := by
      simp only [someStep, allPredecessors, allSuccessors, same, same']
      cases columns <;> rfl
    simp only [stepModes, if_pos, answer]
    refine .ok ?_
    rw [Bool.and_eq_true, all'.isEmpty, all.isEmpty]
    simp only [← left, ← right]
    exact and_iff_left_of_imp exists_comm.mp
  case fixedLeft =>
    intro v fixed
    simp [stepModes, fixed]
  case fixedRight =>
    intro w fixed
    simp [stepModes, fixed]

section Modes

variable (table : knowledge.next.Tabulates fun after before => p.Step before after)
include table

theorem Relation.Next.modes_agree
    : (Next.modes knowledge).Agree p (onLines p.Step) ReadsLine ReadsLine (· = ·)
        .statement .statement :=
  stepModes_agree table Program.relates_step (fun _ => .rfl) (fun _ => .rfl)
    table.rowsAt_spec table.columnsAt_spec
    (Next.modes_answersLines table)

theorem Relation.NextStar.modes_agree
    : (NextStar.modes knowledge).Agree p (onLines (TransGen p.Step)) ReadsLine ReadsLine (· = ·)
        .statement .statement :=
  stepModes_agree table Program.relates_step.transGen (fun _ => transGen_left_iff)
    (fun _ => transGen_right_iff) table.successors_spec table.predecessors_spec
    (NextStar.modes_answersLines table)

end Modes

end Steps

/-- However Next and Next* are asked about an accepted program, the answer is the truth value or a
projection of one relation between statements of any type. So for given types the answers are right just
if every step leads from a statement of the one type to a statement of the other.
-/
theorem Analysis.step_modes_agree {text : String} {a : Analysis}
    (accepted : Analysis.ofText text = .ok a) (filled : a.program.Filled) (short : a.program.Short)
    : (Next.modes a.knowledge).Untyped ∧ (NextStar.modes a.knowledge).Untyped
      ∧ ((Next.modes a.knowledge).Agree a.program (onLines a.program.Step)
          ReadsLine ReadsLine (· = ·) .statement .statement
        ∧ ∀ first second, (Next.modes a.knowledge).Agree a.program (onLines a.program.Step)
          ReadsLine ReadsLine (· = ·) first second
            ↔ ∀ x y, onLines a.program.Step x y → a.program.Fits first x ∧ a.program.Fits second y)
      ∧ (NextStar.modes a.knowledge).Agree a.program (onLines (TransGen a.program.Step))
          ReadsLine ReadsLine (· = ·) .statement .statement
        ∧ ∀ first second, (NextStar.modes a.knowledge).Agree a.program
          (onLines (TransGen a.program.Step)) ReadsLine ReadsLine (· = ·) first second
            ↔ ∀ x y, onLines (TransGen a.program.Step) x y →
              a.program.Fits first x ∧ a.program.Fits second y := by
  have table := (Analysis.describes accepted).next_tabulates short filled
  have steps : (Next.modes a.knowledge).Agree a.program (onLines a.program.Step) ReadsLine ReadsLine
      (· = ·) .statement .statement :=
    Next.modes_agree table
  have paths : (NextStar.modes a.knowledge).Agree a.program (onLines (TransGen a.program.Step))
      ReadsLine ReadsLine (· = ·) .statement .statement :=
    NextStar.modes_agree table
  exact ⟨stepModes_untyped, stepModes_untyped, ⟨steps, fun first second => stepModes_untyped.agree_iff
      (fun _ _ => Program.relates_step.statements) steps⟩,
    paths, fun first second => stepModes_untyped.agree_iff
      (fun _ _ => Program.relates_step.transGen.statements) paths⟩

set_option maxRecDepth 10000 in
/-- A loop comes after itself by way of its body. -/
theorem Analysis.step_modes_agree_loop
    : ∃ a, Analysis.ofText "procedure p \x7b while i \x7b x = 1; \x7d y = 2; \x7d" = .ok a
      ∧ a.program.Filled ∧ a.program.Short
      ∧ (NextStar.modes a.knowledge).memberMember (.name "1") (.line 1) = .ok true
      ∧ (NextStar.modes a.knowledge).Agree a.program (onLines (TransGen a.program.Step))
        ReadsLine ReadsLine (· = ·) .statement .statement := by
  refine exists_ok_of (fun a => a.program.Filled ∧ a.program.Short
      ∧ (NextStar.modes a.knowledge).memberMember (.name "1") (.line 1) = .ok true)
    (by decide +kernel) fun a source ⟨filled, short, after⟩ => ?_
  exact ⟨filled, short, after,
    (Analysis.step_modes_agree source filled short).2.2.2.1⟩

set_option maxRecDepth 10000 in
/-- A loop is answered where an assignment is asked for. -/
theorem Analysis.step_modes_of_other_type
    : ∃ a, Analysis.ofText "procedure p \x7b x = 1; while i \x7b y = 2; \x7d \x7d" = .ok a
      ∧ a.program.Filled ∧ a.program.Short
      ∧ (Next.modes a.knowledge).memberOpen (.line 1) Kind.assignment.label = .ok [.line 2]
      ∧ (NextStar.modes a.knowledge).memberOpen (.line 1) Kind.assignment.label
        = .ok [.line 2, .line 3]
      ∧ ¬ a.program.Fits .assignment (.line 2) := by
  refine exists_ok_of (fun a => a.program.Filled ∧ a.program.Short
      ∧ (Next.modes a.knowledge).memberOpen (.line 1) Kind.assignment.label = .ok [.line 2]
      ∧ (NextStar.modes a.knowledge).memberOpen (.line 1) Kind.assignment.label
        = .ok [.line 2, .line 3]
      ∧ (2 : Int) ∉ a.knowledge.linesOfKind Kind.assignment.label)
    (by decide +kernel) fun a source ⟨filled, short, answer, answer', other⟩ => ?_
  exact ⟨filled, short, answer, answer',
    mt ((Analysis.describes source).mem_linesOfKind (by decide)).mpr other⟩

end ProgramQuery

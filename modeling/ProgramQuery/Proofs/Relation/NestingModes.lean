import ProgramQuery.Proofs.Relation.StarModes

/-! Follows and Parent are answered exactly, with and without a star. -/

open Relation (TransGen)

namespace ProgramQuery

open Text ProgramQuery.Relation

section

variable {p : Program} {knowledge : KnowledgeBase} {first second : Kind} {reason : Prop}
  {v w x y : Entity} (describes : knowledge.Describes p) (named : p.Named) (short : p.Short)

/-- Two statements are looked up by their numbers. -/
theorem Grid.Tabulates.lookup {g : Grid Int} {rel : Nat → Nat → Prop} (table : g.Tabulates rel)
    (left : Numbered reason v x) (right : Numbered reason w y)
    : Answers reason (do return g.markedAt (← Relation.numberOf v) (← Relation.numberOf w))
        fun holds => holds = true ↔ onLines rel x y := by
  refine .read left ?_
  rintro a rfl
  refine .read right ?_
  rintro b rfl
  exact .ok (by rw [table.markedAt_iff, onLines_line])

section Tables

include describes short

theorem KnowledgeBase.Describes.follows_tabulates : knowledge.follows.Tabulates p.Follows :=
  describes.follows ▸ Program.followsGrid_tabulates short

theorem KnowledgeBase.Describes.parent_tabulates (filled : p.Filled)
    : knowledge.parent.Tabulates p.Parent :=
  describes.parent ▸ Program.parentGrid_tabulates short filled

end Tables

theorem Program.relates_follows : p.Relates p.Follows :=
  fun _ _ holds => holds.listed

/-- The one line found is given if it fits. -/
theorem fittingLine_eq {type : String} {line : Option Int}
    : fittingLine knowledge type line = lines (fitting knowledge type line.toList) := by
  cases line with
  | none => simp [fittingLine, fitting, common, lines]
  | some n =>
    have once : [n].eraseDups = [n] := rfl
    by_cases special : type = anyStatement
    · simp [fittingLine, fitting, lines, special]
    · by_cases fits : n ∈ knowledge.linesOfKind type <;>
        simp [fittingLine, fitting, common, lines, special, once, fits]

section Follows

variable (table : knowledge.follows.Tabulates p.Follows)
include table

theorem follows_firstColumn? (x y : Int)
    : knowledge.follows.firstColumn? x = some y ↔ onNumbers p.Follows x y :=
  table.firstColumn?_iff (fun _ _ _ => Program.Follows.unique_right) x y

theorem follows_firstRow? (y x : Int)
    : knowledge.follows.firstRow? y = some x ↔ onNumbers (fun b a => p.Follows a b) y x :=
  table.firstRow?_iff (fun _ _ _ => Program.Follows.unique_left) y x

include describes in
theorem follows_sides
    : Answers reason (Follows.sides knowledge first.label second.label)
        (p.AreSides p.Follows first second) := by
  have fits {a b : Nat} (holds : p.Follows a b) := Program.relates_follows.fits holds
  obtain ⟨rows, same, all⟩ := table.rowNumbers_spec
  obtain ⟨columns, same', all'⟩ := table.columnNumbers_spec
  unfold Follows.sides
  by_cases special : first = .statement
  · subst special
    rw [if_pos (Kind.label_eq_anyStatement.mpr rfl), same']
    by_cases special : second = .statement
    · subst special
      rw [same]
      exact .ok (mem_sides (all.congr fun _ => Program.relates_follows.left_iff)
        (all'.congr fun _ => Program.relates_follows.right_iff))
    · have seconds := (describes.enumerates_linesOfKind special).common all'
      simp only [Kind.label_eq_anyStatement, if_neg special]
      refine .ok (mem_sides ((seconds.filterMap (follows_firstRow? table)).congr fun a => ?_)
        (seconds.congr fun b => ?_))
      · grind
      · grind
  · have firsts := (describes.enumerates_linesOfKind special).common all
    rw [if_neg (by simpa using special), same]
    by_cases special : second = .statement
    · subst special
      have seconds := firsts.filterMap (follows_firstColumn? table)
      refine .ok (mem_sides (firsts.congr fun a => ?_) (seconds.congr fun b => ?_))
      · grind
      · grind
    · have seconds := (describes.enumerates_linesOfKind special).common all'
      have after := Enumerates.of_step (follows_firstColumn? table)
      have before := Enumerates.of_step (follows_firstRow? table)
      simp only [Kind.label_eq_anyStatement, if_neg special, same']
      refine .ok (mem_sides
        ((firsts.filter fun a _ => (after a).any_contains seconds).congr fun a => ?_)
        ((seconds.filter fun b _ => (before b).any_contains firsts).congr fun b => ?_))
      · grind
      · grind

include describes in
theorem Relation.Follows.before_spec (right : Numbered reason w y)
    : Answers reason (Follows.before knowledge first.label w) fun found =>
        found.filter (· ≠ .missing) = found
        ∧ ∀ x, x ∈ found ↔ p.Fits first x ∧ onLines p.Follows x y := by
  refine .read right ?_
  rintro b rfl
  rw [fittingLine_eq]
  exact .ok ⟨lines_filter_missing _, ((Enumerates.of_step (follows_firstRow? table) b).fitting describes
    (fun a holds => (Program.relates_follows a b holds).1) first).mem_before⟩

include describes in
theorem Relation.Follows.modes_answersLines
    : (Follows.modes knowledge).AnswersLines p p.Follows first second reason := by
  constructor
  case member =>
    intro v w x y left right
    exact table.lookup left right
  case after =>
    intro v x left
    refine .read left ?_
    rintro a rfl
    rw [fittingLine_eq]
    exact .ok ((Enumerates.of_step (follows_firstColumn? table) a).fitting describes
      (fun b holds => (Program.relates_follows a b holds).2) second).mem_after
  case before =>
    intro w y right
    exact (before_spec describes table right).mono fun found exact_ x => by rw [exact_.1, exact_.2]
  case sides => exact follows_sides describes table
  case beforeFixed =>
    intro w y right fixed
    simp only [Follows.modes, if_neg fixed]
    exact (before_spec describes table right).mono fun found exact_ => exact_.2

end Follows

include describes named short in
theorem Relation.Follows.modes_exact
    : (Follows.modes knowledge).Exact p (onLines p.Follows) first second :=
  (Follows.modes_answersLines describes (describes.follows_tabulates short)).exact named short

theorem Relation.Follows.modes_plain (knowledge : KnowledgeBase)
    : (Follows.modes knowledge).Plain := by
  constructor <;> intros <;> simp_all [Follows.modes]

theorem Relation.FollowsStar.modes_star (knowledge : KnowledgeBase)
    : (FollowsStar.modes knowledge).Star knowledge knowledge.follows
        (FollowsStar.allAfter knowledge) (FollowsStar.allBefore knowledge) := by
  refine ⟨rfl, rfl, rfl, rfl, fun type w fixed => ?_⟩
  simp [FollowsStar.modes, fixed]

theorem enumerates_allAfter (table : knowledge.follows.Tabulates p.Follows) (a : Nat)
    : Enumerates (FollowsStar.allAfter knowledge a) (TransGen p.Follows a) :=
  table.ascent_columns_spec (fun _ _ _ => Program.Follows.unique_right)
    (fun _ _ => Program.Follows.lt) a

theorem enumerates_allBefore (table : knowledge.follows.Tabulates p.Follows) (b : Nat)
    : Enumerates (FollowsStar.allBefore knowledge b) fun a => TransGen p.Follows a b :=
  table.ascent_rows_spec (follows_firstRow? table) (fun _ _ => Program.Follows.lt) b

include describes in
theorem Relation.FollowsStar.modes_answersLines (table : knowledge.follows.Tabulates p.Follows)
    : (FollowsStar.modes knowledge).AnswersLines p (TransGen p.Follows) first second reason :=
  Modes.Star.answersLines describes table Program.relates_follows (enumerates_allAfter table)
    (enumerates_allBefore table) (FollowsStar.modes_star knowledge)

include describes named short in
theorem Relation.FollowsStar.modes_exact
    : (FollowsStar.modes knowledge).Exact p (onLines (TransGen p.Follows)) first second :=
  (FollowsStar.modes_answersLines describes (describes.follows_tabulates short)).exact named short

theorem Relation.FollowsStar.modes_plain (knowledge : KnowledgeBase)
    : (FollowsStar.modes knowledge).Plain := by
  constructor <;> intros <;> simp_all [FollowsStar.modes]

theorem Program.relates_parent : p.Relates p.Parent :=
  fun _ _ holds => holds.listed

section Parent

variable (table : knowledge.parent.Tabulates p.Parent)
include table

theorem parentOf?_eq_some (y x : Int)
    : parentOf? knowledge y = some x ↔ onNumbers (fun b a => p.Parent a b) y x :=
  table.rowsAt_head?_iff (fun _ _ _ => Program.Parent.unique) y x

/-- The parent of a statement, as a list. -/
theorem enumerates_parent (b : Nat)
    : Enumerates (parentOf? knowledge b).toList fun a => p.Parent a b :=
  .of_step (parentOf?_eq_some table) b

include describes in
theorem mem_fittingParent (b : Nat)
    : Answers reason
        (match parentOf? knowledge b with
          | some n => pure (lines (fitting knowledge first.label [n]))
          | none => pure [])
        fun found => found.filter (· ≠ .missing) = found
          ∧ ∀ x, x ∈ found ↔ p.Fits first x ∧ onLines p.Parent x (.line b) := by
  have all := (enumerates_parent table b).fitting describes
    (fun a holds => (Program.relates_parent a b holds).1) first
  have same : (match parentOf? knowledge b with
      | some n => pure (lines (fitting knowledge first.label [n]))
      | none => pure [] : Asked (List Entity))
      = .ok (lines (fitting knowledge first.label (parentOf? knowledge b).toList)) := by
    cases parentOf? knowledge b with
    | some n => rfl
    | none => simp [fitting, common, lines, pure, Except.pure]
  rw [same]
  exact .ok ⟨lines_filter_missing _, all.mem_before⟩

/-- A parent that is missing is given as such and then left out. -/
theorem mem_parent_of_statement (b : Nat)
    : Answers reason
        (match parentOf? knowledge b with
          | some n => pure [.line n]
          | none => pure [.missing])
        fun found => ∀ x, x ∈ found.filter (· ≠ .missing)
          ↔ p.Fits .statement x ∧ onLines p.Parent x (.line b) := by
  have all := (enumerates_parent table b).congr fun a =>
    (and_iff_left_of_imp fun holds => (Program.relates_parent.fits holds).1).symm
  cases found : parentOf? knowledge b with
  | some n =>
    rw [found] at all
    exact .ok fun x => (all.mem_before x)
  | none =>
    rw [found] at all
    exact .ok fun x => (all.mem_before x)

include describes in
theorem parent_sides
    : Answers reason (Parent.sides knowledge first.label second.label)
        (p.AreSides p.Parent first second) := by
  have fits {a b : Nat} (holds : p.Parent a b) := Program.relates_parent.fits holds
  obtain ⟨rows, same, all⟩ := table.rowNumbers_spec
  obtain ⟨columns, same', all'⟩ := table.columnNumbers_spec
  unfold Parent.sides
  by_cases special : first = .statement
  · subst special
    rw [if_pos (Kind.label_eq_anyStatement.mpr rfl), same']
    by_cases special : second = .statement
    · subst special
      rw [same]
      exact .ok (mem_sides (all.congr fun _ => Program.relates_parent.left_iff)
        (all'.congr fun _ => Program.relates_parent.right_iff))
    · have seconds := (describes.enumerates_linesOfKind special).common all'
      simp only [Kind.label_eq_anyStatement, if_neg special]
      refine .ok (mem_sides ((seconds.filterMap (parentOf?_eq_some table)).congr fun a => ?_)
        (seconds.congr fun b => ?_))
      · grind
      · grind
  · rw [if_neg (by simpa using special), same]
    have firsts := (describes.enumerates_linesOfKind special).common all
    have fit (a : Nat) := (table.columnsAt_spec a).fitting describes
      (fun b holds => (Program.relates_parent a b holds).2) second
    -- with any statement on the right the ones without children drop out by themselves
    have kept : Enumerates (if second.label = anyStatement
          then common (knowledge.linesOfKind first.label) rows
          else (common (knowledge.linesOfKind first.label) rows).filter fun n =>
            !(fitting knowledge second.label (knowledge.parent.columnsAt n)).isEmpty)
        fun a => p.Fits first (.line a) ∧ ∃ b, p.Fits second (.line (b : Nat)) ∧ p.Parent a b := by
      by_cases special : second = .statement
      · subst special
        rw [if_pos (Kind.label_eq_anyStatement.mpr rfl)]
        exact firsts.congr fun a => by grind
      · rw [if_neg (by simpa using special)]
        refine (firsts.filter fun a _ => (fit a).isEmpty).congr fun a => ?_
        grind
    refine .ok (mem_sides kept (((kept.flatMap fun a _ => fit a).eraseDups).congr fun b => ?_))
    grind

include describes in
theorem Relation.Parent.modes_answersLines
    : (Parent.modes knowledge).AnswersLines p p.Parent first second reason := by
  have before {w y : Entity} (right : Numbered reason w y)
      : Answers reason (Parent.fittingParent knowledge first.label w) fun found =>
          found.filter (· ≠ .missing) = found
          ∧ ∀ x, x ∈ found ↔ p.Fits first x ∧ onLines p.Parent x y := by
    refine .read right ?_
    rintro b rfl
    exact mem_fittingParent describes table b
  constructor
  case member =>
    intro v w x y left right
    exact table.lookup left right
  case after =>
    intro v x left
    refine .read left ?_
    rintro a rfl
    exact .ok ((table.columnsAt_spec a).fitting describes
      (fun b holds => (Program.relates_parent a b holds).2) second).mem_after
  case before =>
    intro w y right
    by_cases special : first = .statement
    · subst special
      refine .read right ?_
      rintro b rfl
      exact mem_parent_of_statement table b
    · simp only [Parent.modes, Kind.label_eq_anyStatement, if_neg special]
      exact (before right).mono fun found exact_ x => by rw [exact_.1, exact_.2]
  case sides => exact parent_sides describes table
  case beforeFixed =>
    intro w y right fixed
    simp only [Parent.modes, if_neg fixed]
    exact (before right).mono fun found exact_ => exact_.2

end Parent

include describes named short in
theorem Relation.Parent.modes_exact (filled : p.Filled)
    : (Parent.modes knowledge).Exact p (onLines p.Parent) first second :=
  (Parent.modes_answersLines describes (describes.parent_tabulates short filled)).exact named short

theorem Relation.Parent.modes_plain (knowledge : KnowledgeBase)
    : (Parent.modes knowledge).Plain := by
  constructor <;> intros <;> simp_all [Parent.modes]

theorem Relation.ParentStar.modes_star (knowledge : KnowledgeBase)
    : (ParentStar.modes knowledge).Star knowledge knowledge.parent
        (ParentStar.allInside knowledge) (ParentStar.allAround knowledge) := by
  refine ⟨rfl, rfl, rfl, rfl, fun type w fixed => ?_⟩
  simp [ParentStar.modes, fixed]

theorem enumerates_allAround (table : knowledge.parent.Tabulates p.Parent) (b : Nat)
    : Enumerates (ParentStar.allAround knowledge b) fun a => TransGen p.Parent a b :=
  table.ascent_rows_spec (parentOf?_eq_some table) (fun _ _ => Program.Parent.lt) b

include describes in
theorem Relation.ParentStar.modes_answersLines (table : knowledge.parent.Tabulates p.Parent)
    : (ParentStar.modes knowledge).AnswersLines p (TransGen p.Parent) first second reason :=
  Modes.Star.answersLines describes table Program.relates_parent table.columnClosure_spec
    (enumerates_allAround table) (ParentStar.modes_star knowledge)

include describes named short in
theorem Relation.ParentStar.modes_exact (filled : p.Filled)
    : (ParentStar.modes knowledge).Exact p (onLines (TransGen p.Parent)) first second :=
  (ParentStar.modes_answersLines describes (describes.parent_tabulates short filled)).exact named short

theorem Relation.ParentStar.modes_plain (knowledge : KnowledgeBase)
    : (ParentStar.modes knowledge).Plain := by
  constructor <;> intros <;> simp_all [ParentStar.modes]

end

end ProgramQuery

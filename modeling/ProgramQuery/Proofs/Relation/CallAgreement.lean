import ProgramQuery.Proofs.Relation.Agreement
import ProgramQuery.Proofs.Relation.Exactness

/-! All ways of asking Calls and Calls* agree. -/

open Relation (TransGen)

namespace ProgramQuery

open Text ProgramQuery.Relation

def StandsForName (v x : Entity) : Prop :=
  v = x ∧ x ≠ anything ∧ ∃ a, x = .name a

section Calls

variable {p : Program} {knowledge : KnowledgeBase} {rel : String → String → Prop}
  {callees callers : Entity → List String} {holds : Entity → Entity → Bool}
  (describes : knowledge.Describes p) {v w x y : Entity} {property : Entity → Prop}

theorem StandsForName.distinguishes : Distinguishes StandsForName where
  fixed stands := stands.1 ▸ stands.2.1
  unique stands stands' := stands'.1.symm.trans stands.1

theorem exists_onNames : (∃ x y, onNames rel x y) ↔ ∃ a b, rel a b := by
  constructor
  · intro ⟨x, y, holds⟩
    obtain ⟨a, b, holds, -, -⟩ := holds.names
    exact ⟨a, b, holds⟩
  · exact fun ⟨a, b, holds⟩ => ⟨.name a, .name b, holds⟩

theorem onNames_name_left {a : String} : (∃ y, onNames rel (.name a) y) ↔ ∃ b, rel a b := by
  constructor
  · intro ⟨y, holds⟩
    obtain ⟨_, b, -, -, rfl⟩ := holds.names
    exact ⟨b, holds⟩
  · exact fun ⟨b, holds⟩ => ⟨.name b, holds⟩

theorem onNames_name_right {b : String} : (∃ x, onNames rel x (.name b)) ↔ ∃ a, rel a b := by
  constructor
  · intro ⟨x, holds⟩
    obtain ⟨a, _, -, rfl, -⟩ := holds.names
    exact ⟨a, holds⟩
  · exact fun ⟨a, holds⟩ => ⟨.name a, holds⟩

theorem Program.RelatesProcedures.fits (relates : p.RelatesProcedures rel) (holds : onNames rel x y)
    : p.Fits .procedure x ∧ p.Fits .procedure y := by
  obtain ⟨a, b, related, rfl, rfl⟩ := holds.names
  exact relates a b related

/-- Names that are found on one side of a relation between procedures. -/
theorem tells_names {xs : List String}
    (named : ∀ x, property x → ∃ a, x = .name a) (all : ∀ a, a ∈ xs ↔ property (.name a))
    : Tells (· = ·) (Relation.names xs) property := by
  refine tells_eq fun e => ?_
  simp only [Relation.names, List.mem_map, all]
  constructor
  · rintro ⟨a, holds, rfl⟩
    exact holds
  · intro holds
    obtain ⟨a, rfl⟩ := named e holds
    exact ⟨a, holds, rfl⟩

include describes in
/-- Both call relations find what is called and what calls, and both have the same procedures on their
sides.
-/
theorem Relation.callModes_agree (relates : p.RelatesProcedures rel)
    (left : ∀ a, (∃ b, rel a b) ↔ ∃ b, p.Calls a b)
    (right : ∀ b, (∃ a, rel a b) ↔ ∃ a, p.Calls a b)
    (afters : ∀ a c, c ∈ callees (.name a) ↔ rel a c)
    (befores : ∀ b c, c ∈ callers (.name b) ↔ rel c b)
    (member : ∀ a b, holds (.name a) (.name b) = true ↔ rel a b)
    : (callModes knowledge callees callers holds).Agree p (onNames rel) StandsForName StandsForName
        (· = ·) .procedure .procedure := by
  have called (a : String)
      : Tells (· = ·) (Relation.names (callees (.name a))) fun y =>
          p.Fits .procedure y ∧ onNames rel (.name a) y := by
    refine tells_names ?_ fun b => ?_
    · rintro y ⟨-, holds⟩
      obtain ⟨_, b, -, -, rfl⟩ := holds.names
      exact ⟨b, rfl⟩
    · rw [afters]
      exact (and_iff_right_of_imp fun holds => (relates a b holds).2).symm
  have calling (b : String)
      : Tells (· = ·) (Relation.names (callers (.name b))) fun x =>
          p.Fits .procedure x ∧ onNames rel x (.name b) := by
    refine tells_names ?_ fun a => ?_
    · rintro x ⟨-, holds⟩
      obtain ⟨a, _, -, rfl, -⟩ := holds.names
      exact ⟨a, rfl⟩
    · rw [befores]
      exact (and_iff_right_of_imp fun holds => (relates a b holds).1).symm
  have lefts : Tells (· = ·) (Relation.names knowledge.calls.rowNames) fun x =>
      p.Fits .procedure x ∧ ∃ y, onNames rel x y := by
    refine tells_names ?_ fun a => ?_
    · rintro x ⟨-, y, holds⟩
      obtain ⟨a, _, -, rfl, -⟩ := holds.names
      exact ⟨a, rfl⟩
    · rw [describes.mem_rowNames_calls, ← left, onNames_name_left]
      exact (and_iff_right_of_imp fun any => (relates a _ any.choose_spec).1).symm
  have rights : Tells (· = ·) (Relation.names knowledge.calls.allColumns) fun y =>
      p.Fits .procedure y ∧ ∃ x, onNames rel x y := by
    refine tells_names ?_ fun b => ?_
    · rintro y ⟨-, x, holds⟩
      obtain ⟨_, b, -, -, rfl⟩ := holds.names
      exact ⟨b, rfl⟩
    · rw [describes.mem_allColumns_calls, ← right, onNames_name_right]
      exact (and_iff_right_of_imp fun any => (relates _ b any.choose_spec).2).symm
  refine Modes.Reports.agree ?_ callModes_plain (fun fixed _ => callModes_plain.fixedMember fixed)
    StandsForName.distinguishes StandsForName.distinguishes
  constructor
  case member =>
    rintro v w _ _ ⟨rfl, -, a, rfl⟩ ⟨rfl, -, b, rfl⟩
    exact .ok (member a b)
  case after =>
    rintro v _ ⟨rfl, -, a, rfl⟩
    exact .ok (called a)
  case before =>
    rintro w _ ⟨rfl, -, b, rfl⟩
    refine .ok ?_
    rw [names_filter_missing]
    exact calling b
  case beforeFixed =>
    rintro w _ ⟨rfl, fixed, b, rfl⟩
    simp only [callModes, if_neg fixed]
    exact .ok (calling b)
  case sides =>
    refine .ok ⟨lefts.congr fun x => ?_, rights.congr fun y => ?_⟩
    · exact and_congr_right fun _ => exists_congr fun y =>
        (and_iff_right_of_imp fun holds => (relates.fits holds).2).symm
    · exact and_congr_right fun _ => exists_congr fun x =>
        (and_iff_right_of_imp fun holds => (relates.fits holds).1).symm
  case followed =>
    rintro v _ ⟨rfl, -, a, rfl⟩
    simp only [callModes, if_pos, onNames_name_left]
    refine .ok ?_
    simp only [hasMembers_iff, afters]
  case preceded =>
    rintro w _ ⟨rfl, -, b, rfl⟩
    simp only [callModes, if_pos, onNames_name_right]
    refine .ok ?_
    simp only [hasMembers_iff, befores]
  case lefts => exact .ok lefts
  case rights => exact .ok rights
  case some =>
    simp only [callModes, if_pos, exists_onNames]
    refine .ok ?_
    rw [Bool.and_eq_true, hasMembers_iff, hasMembers_iff]
    simp only [describes.mem_rowNames_calls, describes.mem_allColumns_calls, ← left, ← right]
    exact and_iff_left_of_imp exists_comm.mp
  case fixedLeft =>
    intro v fixed
    simp only [callModes, if_pos, if_neg fixed]
  case fixedRight =>
    intro w fixed
    simp only [callModes, if_pos, if_neg fixed]

section Modes

variable (declared : p.CalleesDeclared)
include describes declared

theorem Relation.Calls.modes_agree
    : (Calls.modes knowledge).Agree p (onNames p.Calls) StandsForName StandsForName (· = ·)
        .procedure .procedure :=
  callModes_agree describes declared.relates (fun _ => .rfl) (fun _ => .rfl)
    (fun _ _ => describes.mem_columnsOf_calls) (fun _ _ => describes.mem_rowsWith_calls)
    fun _ _ => describes.marked_calls

theorem Relation.CallsStar.modes_agree (lists : p.Lists p.callGrid.called?)
    : (CallsStar.modes knowledge).Agree p (onNames (TransGen p.Calls)) StandsForName StandsForName
        (· = ·) .procedure .procedure :=
  callModes_agree describes declared.relates.transGen (fun _ => transGen_left_iff)
    (fun _ => transGen_right_iff) (fun _ _ => CallsStar.mem_callees describes declared lists)
    (fun _ _ => CallsStar.mem_callers describes declared lists) fun a b =>
      (CallsStar.holdsUpTo_iff describes declared lists le_rfl).trans (by simp)

end Modes

end Calls

end ProgramQuery

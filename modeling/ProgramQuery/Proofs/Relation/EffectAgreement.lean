import ProgramQuery.Proofs.Relation.Agreement
import ProgramQuery.Proofs.Relation.Exactness

/-! The ways of asking Modifies and Uses agree but for one: with `_` on the left of a variable that is
already known, the variable is not looked at.
-/

namespace ProgramQuery

open Text ProgramQuery.Relation

def IsPlace : Entity → Prop
  | .missing => False
  | .line n => ∃ a : Nat, (a : Int) = n
  | .name a => isName a = true

/-- A place that is asked about, a statement by its number or by a numeral. -/
def StandsForPlace (v x : Entity) : Prop :=
  Stands v x ∧ IsPlace x

def StandsForVariable (w y : Entity) : Prop :=
  w = y ∧ ∃ z, y = .name z ∧ isName z = true

section Places

variable {v w x y : Entity} {z : String}

theorem isName_ne_anything (isName : isName z = true) : Entity.name z ≠ anything := by
  intro same
  obtain rfl : z = "_" := by simpa [anything] using same
  revert isName
  decide +kernel

theorem showInt_ne_anything (a : Nat) : showInt a ≠ "_" := by
  intro same
  have digits := (showInt_digits a).2 '_' (by simp [same])
  revert digits
  decide

/-- Places are told apart by their texts. -/
theorem IsPlace.eq_of_text (first : IsPlace x) (second : IsPlace y) (same : x.text = y.text)
    : x = y := by
  match x, y, first, second with
  | .line _, .line _, ⟨a, rfl⟩, ⟨b, rfl⟩ => rw [showInt_inj.mp same]
  | .line _, .name b, ⟨a, rfl⟩, second => exact absurd same.symm (isName_ne_showInt second a)
  | .name a, .line _, first, ⟨b, rfl⟩ => exact absurd same (isName_ne_showInt first b)
  | .name a, .name b, _, _ => rw [show a = b from same]

theorem StandsForPlace.ne_anything (stands : StandsForPlace v x) : v ≠ anything := by
  intro same
  have text : x.text = "_" := by rw [← stands.1.text, same]; rfl
  match x, stands.2, text with
  | .line _, ⟨a, rfl⟩, text => exact showInt_ne_anything a text
  | .name a, isName, text => exact isName_ne_anything isName (congrArg Entity.name text)

theorem StandsForVariable.ne_anything (stands : StandsForVariable w y) : w ≠ anything := by
  obtain ⟨rfl, z, rfl, isName⟩ := stands
  exact isName_ne_anything isName

theorem StandsForPlace.distinguishes : Distinguishes StandsForPlace where
  fixed stands := stands.ne_anything
  unique stands stands' := stands'.2.eq_of_text stands.2 (stands'.1.text.symm.trans stands.1.text)

theorem StandsForVariable.distinguishes : Distinguishes StandsForVariable where
  fixed stands := stands.ne_anything
  unique stands stands' := stands'.1.symm.trans stands.1

theorem Program.Fits.isPlace {p : Program} {kind : Kind} (fits : p.Fits kind x) (named : p.Named)
    : IsPlace x := by
  match x, fits with
  | .line _, ⟨line, _, _, _, rfl⟩ => exact ⟨line, rfl⟩
  | .name _, fits => exact named.isName fits

end Places

section Effects

variable {p : Program} {own : Stmt → String → Prop} {keeps : Stmt → Bool} {effects : Grid Int}
  {knowledge : KnowledgeBase} {kind : Kind} (table : p.EffectGrid own keeps effects)
  (describes : knowledge.Describes p) (named : p.Named) (short : p.Short)
  (mentions : ∀ s z, own s z → s.Assigns z ∨ s.Reads z)
  (productive : ∀ line s, (line, s) ∈ p.listing → keeps s = true → ∃ z, p.Touches own s z)
  (place : kind ≠ .variable) {v w x y : Entity} {z : String}

include table named in
/-- The row of a place holds the variables it touches. -/
theorem Program.EffectGrid.mem_columnsOf_place (isPlace : IsPlace x)
    : z ∈ effects.columnsOf x.text ↔ p.TouchedFrom own x (.name z) := by
  rw [table.cells]
  match x, isPlace with
  | .line _, ⟨a, rfl⟩ =>
    constructor
    · intro cell
      rcases cell with does | ⟨line, s, listed, same, does⟩
      · obtain ⟨procedure, member, name⟩ := does.declared
        exact absurd name (isName_ne_showInt (named procedure member).name a)
      · exact ⟨line, s, listed, does, congrArg Int.ofNat (showInt_inj.mp same)⟩
    · intro ⟨line, s, listed, does, same⟩
      exact .inr ⟨line, s, listed, congrArg showInt same, does⟩
  | .name a, isName =>
    constructor
    · intro cell
      rcases cell with does | ⟨line, s, listed, same, does⟩
      · exact does
      · exact absurd same.symm (isName_ne_showInt isName line)
    · exact .inl

include table named in
theorem touches_iff_of_place (left : StandsForPlace v x) (right : StandsForVariable w y)
    : touches effects v w = true ↔ p.TouchedFrom own x y := by
  obtain ⟨rfl, z, rfl, -⟩ := right
  rw [touches, table.marks.marked_iff, left.1.text]
  exact table.mem_columnsOf_place named left.2

include table named in
theorem touchedBy_isEmpty_iff (left : StandsForPlace v x)
    : (!(touchedBy effects v).isEmpty) = true ↔ ∃ y, p.TouchedFrom own x y := by
  rw [touchedBy, left.1.text, hasMembers_iff]
  constructor
  · rintro ⟨z, cell⟩
    exact ⟨.name z, (table.mem_columnsOf_place named left.2).mp cell⟩
  · rintro ⟨y, does⟩
    obtain ⟨z, rfl⟩ := does.name
    exact ⟨z, (table.mem_columnsOf_place named left.2).mpr does⟩

include table named in
/-- A variable in the table is touched from some place. -/
theorem Program.EffectGrid.exists_columnsOf_iff
    : (∃ row, z ∈ effects.columnsOf row) ↔ ∃ x, p.TouchedFrom own x (.name z) := by
  constructor
  · intro ⟨row, cell⟩
    rcases (table.cells row z).mp cell with does | ⟨line, s, listed, -, does⟩
    · exact ⟨.name row, does⟩
    · exact ⟨.line line, line, s, listed, does, rfl⟩
  · intro ⟨x, does⟩
    have isPlace : IsPlace x := by
      match x, does with
      | .line _, ⟨line, _, _, _, rfl⟩ => exact ⟨line, rfl⟩
      | .name _, does =>
        obtain ⟨procedure, member, rfl⟩ := Program.ProcedureTouches.declared does
        exact (named procedure member).name
    exact ⟨x.text, (table.mem_columnsOf_place named isPlace).mpr does⟩

include table named in
theorem Program.EffectGrid.mem_effectVariables_iff
    : z ∈ effectVariables effects ↔ ∃ x, p.TouchedFrom own x (.name z) := by
  rw [effectVariables, List.mem_eraseDups, table.orderly.mem_allColumns,
    table.exists_columnsOf_iff named]

include table named in
theorem effectVariables_isEmpty_iff
    : (!(effectVariables effects).isEmpty) = true ↔ ∃ x y, p.TouchedFrom own x y := by
  simp only [hasMembers_iff, table.mem_effectVariables_iff named]
  constructor
  · exact fun ⟨z, x, does⟩ => ⟨x, _, does⟩
  · intro ⟨x, y, does⟩
    obtain ⟨z, rfl⟩ := does.name
    exact ⟨z, x, does⟩

include table describes named mentions productive place in
/-- The places of a kind with a row of their own, statements by their numerals. -/
theorem tells_recordedPlaces
    : Tells Stands (recordedPlaces knowledge effects kind.label) fun x =>
        p.Fits kind x ∧ ∃ y, p.TouchedFrom own x y := by
  have touched {x : Entity} : (∃ y, p.Fits .variable y ∧ p.TouchedFrom own x y)
      ↔ ∃ y, p.TouchedFrom own x y := by
    rw [← exists_touchedFrom_iff mentions]
    constructor
    · rintro ⟨z, does⟩
      exact ⟨_, does⟩
    · rintro ⟨y, does⟩
      obtain ⟨z, rfl⟩ := does.name
      exact ⟨z, does⟩
  unfold recordedPlaces
  by_cases procedure : kind = .procedure
  · subst procedure
    rw [if_pos (Kind.label_eq_procedure.mpr rfl)]
    refine tells_of_mem (fun _ => .inl rfl) fun e => ?_
    rw [mem_recordedProcedures table describes named mentions, touched]
  · have candidates (n : Int)
        : n ∈ (if kind.label = anyStatement then knowledge.statementLines
          else knowledge.linesOfKind kind.label) ↔ p.Fits kind (.line n) := by
      have all := describes.mem_candidates place (e := .line n)
      rw [if_neg (by simpa using procedure)] at all
      simpa [lines] using all
    have recorded {a : Nat} : showInt a ∈ effects.rowNames
        ↔ ∃ y, p.TouchedFrom own (.line a) y := by
      rw [table.mem_rowNames_numeral named, Program.EffectGrid.kept_iff (productive _),
        exists_touchedFrom_iff mentions, touched]
    rw [if_neg (by simpa using procedure)]
    constructor
    · intro e member
      simp only [names, List.mem_map, mem_common, candidates] at member
      obtain ⟨_, ⟨⟨n, fits, rfl⟩, row⟩, rfl⟩ := member
      obtain ⟨a, rfl, -⟩ := fits.exists_line
      exact ⟨.line a, .inr rfl, fits, recorded.mp row⟩
    · rintro x ⟨fits, does⟩
      cases x with
      | name a =>
        rcases fits with ⟨rfl, -⟩ | ⟨rfl, -⟩
        · exact absurd rfl procedure
        · exact absurd rfl place
      | missing => exact fits.elim
      | line n =>
        obtain ⟨a, rfl, -⟩ := fits.exists_line
        refine ⟨.name (showInt a), ?_, .inr rfl⟩
        simp only [names, List.mem_map, mem_common, candidates]
        exact ⟨_, ⟨⟨a, fits, rfl⟩, recorded.mpr does⟩, rfl⟩

include table describes named short mentions productive place in
/-- All ways of asking agree if those for a member on the right of a fixed argument are left out. -/
theorem Relation.effectModes_agree
    : { effectModes knowledge effects with
        fixedMember := (effectModes knowledge effects).fixedFixed }.Agree p (p.TouchedFrom own)
        StandsForPlace StandsForVariable Stands kind .variable := by
  have tells {found : List Entity} {property : Entity → Prop}
      (all : ∀ e, e ∈ found ↔ property e)
      : Tells Stands found property :=
    tells_of_mem (fun _ => .inl rfl) all
  have after {v x : Entity} (left : StandsForPlace v x) (y : Entity)
      : y ∈ names (touchedBy effects v) ↔ p.Fits .variable y ∧ p.TouchedFrom own x y := by
    simp only [names, List.mem_map, touchedBy, left.1.text, table.mem_columnsOf_place named left.2]
    constructor
    · rintro ⟨z, does, isName⟩
      exact isName ▸ ⟨does.fits mentions, does⟩
    · rintro ⟨-, does⟩
      obtain ⟨z, rfl⟩ := does.name
      exact ⟨z, does, rfl⟩
  have before {w y x : Entity} (right : StandsForVariable w y)
      : x ∈ placesOf knowledge effects kind.label w ↔ p.Fits kind x ∧ p.TouchedFrom own x y :=
    mem_placesOf describes place fun x fits =>
      touches_iff_of_place table named ⟨.inl rfl, fits.isPlace named⟩ right
  have plain := effectModes_plain knowledge effects
  refine Modes.Reports.agree ?_ plain plain.fixedFixed StandsForPlace.distinguishes
    StandsForVariable.distinguishes
  constructor
  case member => exact fun left right => .ok (touches_iff_of_place table named left right)
  case after => exact fun left => .ok (tells (after left))
  case before =>
    intro w y right
    refine .ok (tells fun x => ?_)
    rw [List.mem_filter, before right]
    refine and_iff_left_of_imp fun both => ?_
    cases x <;> simp_all [Program.Fits]
  case beforeFixed =>
    intro w y right
    simp only [effectModes, if_neg right.ne_anything]
    exact .ok (tells fun x => before right)
  case sides =>
    exact (effectSides_exact table describes named short mentions
      (fun line s listed _ => productive line s listed) place).mono
      fun found all => ⟨tells all.1, tells all.2⟩
  case followed => exact fun left => .ok (touchedBy_isEmpty_iff table named left)
  case preceded =>
    intro w y right
    simp only [effectModes, if_pos, if_neg right.ne_anything]
    obtain ⟨rfl, z, rfl, -⟩ := right
    refine .ok ?_
    simp only [hasMembers_iff, table.orderly.mem_rowsWith]
    exact table.exists_columnsOf_iff named
  case lefts => exact .ok (tells_recordedPlaces table describes named mentions productive place)
  case rights =>
    simp only [effectModes, if_pos]
    refine .ok (tells fun y => ?_)
    simp only [names, List.mem_map, table.mem_effectVariables_iff named]
    constructor
    · rintro ⟨z, ⟨x, does⟩, isName⟩
      exact isName ▸ ⟨does.fits mentions, x, does⟩
    · rintro ⟨-, x, does⟩
      obtain ⟨z, rfl⟩ := does.name
      exact ⟨z, ⟨x, does⟩, rfl⟩
  case some =>
    simp only [effectModes, if_pos]
    refine .ok ?_
    rw [Bool.and_eq_true, effectVariables_isEmpty_iff table named]
    refine and_iff_left_of_imp ?_
    rintro ⟨x, y, does⟩
    obtain ⟨z, rfl⟩ := does.name
    obtain ⟨row, cell⟩ := (table.exists_columnsOf_iff named).mpr ⟨x, does⟩
    exact hasMembers_iff.mpr ⟨row, Grid.mem_rowNames_of_mem_columnsOf cell⟩
  case fixedLeft =>
    intro v fixed
    simp only [effectModes, if_pos, if_neg fixed]
  case fixedRight => exact fun _ => rfl

end Effects

/-- However Modifies and Uses are asked about an accepted program, the answer is the truth value or a
projection of one relation, with one exception. A fixed argument on the left of a variable that is
already known would have to be asked about as on the left of a fixed variable, and it is unless it is
`_`: then the answer says whether anything is touched at all.
-/
theorem Analysis.effect_modes_agree {text : String} {a : Analysis} {relation : RelationName}
    {m : Modes} {kind : Kind} (accepted : Analysis.ofText text = .ok a)
    (filled : a.program.Filled) (declared : a.program.CalleesDeclared) (short : a.program.Short)
    (effect : relation = .modifies ∨ relation = .uses)
    (asked : relation.modes? a.knowledge = some m) (place : kind ≠ .variable)
    : { m with fixedMember := m.fixedFixed }.Agree a.program (a.program.Holds relation)
        StandsForPlace StandsForVariable Stands kind .variable
      ∧ (∀ v w, v ≠ anything → w ≠ anything → m.fixedMember v w = m.fixedFixed v w)
      ∧ ∀ w, Answers False (m.fixedMember anything w) fun holds =>
          holds = true ↔ ∃ x y, a.program.Holds relation x y := by
  have describes := Analysis.describes accepted
  have named := Analysis.named accepted
  obtain ⟨lists, modifies, uses⟩ :=
    KnowledgeBase.ofProgram?_eq_some (Analysis.ofText_eq_ok accepted).2
  have fixed (effects : Grid Int) (v w : Entity) (known : v ≠ anything) (known' : w ≠ anything)
      : (effectModes a.knowledge effects).fixedMember v w
        = (effectModes a.knowledge effects).fixedFixed v w := by
    simp only [effectModes, if_neg known, if_neg known']
  rcases effect with rfl | rfl <;> cases asked
  · exact ⟨effectModes_agree modifies describes named short (fun _ _ => .inl)
      (fun _ _ listed _ => filled.exists_touches declared lists listed) place, fixed _,
      fun w => .ok (effectVariables_isEmpty_iff modifies named)⟩
  · exact ⟨effectModes_agree uses describes named short (fun _ _ => .inr)
      (fun _ _ _ kept => by cases kept) place, fixed _,
      fun w => .ok (effectVariables_isEmpty_iff uses named)⟩

set_option maxRecDepth 10000 in
/-- A loop that modifies something only through a call, asked about by its numeral. -/
theorem Analysis.effect_modes_agree_call
    : ∃ a, Analysis.ofText "procedure A \x7b while i \x7b call B; \x7d \x7d
          procedure B \x7b y = z; \x7d" = .ok a
      ∧ a.program.Filled ∧ a.program.CalleesDeclared ∧ a.program.Short
      ∧ (effectModes a.knowledge a.knowledge.modifies).memberMember (.name "1") (.name "y")
        = .ok true
      ∧ { effectModes a.knowledge a.knowledge.modifies with
          fixedMember := (effectModes a.knowledge a.knowledge.modifies).fixedFixed }.Agree
          a.program (a.program.Holds .modifies) StandsForPlace StandsForVariable Stands
          .loop .variable := by
  refine exists_ok_of (fun a => a.program.Filled ∧ a.program.CalleesDeclared ∧ a.program.Short
      ∧ (effectModes a.knowledge a.knowledge.modifies).memberMember (.name "1") (.name "y")
        = .ok true) (by decide +kernel) fun a source ⟨filled, declared, short, modified⟩ => ?_
  exact ⟨filled, declared, short, modified,
    (Analysis.effect_modes_agree source filled declared short (.inl rfl) rfl (by decide)).1⟩

set_option maxRecDepth 10000 in
/-- A variable that nothing uses is said to be used by something, since another variable is. -/
theorem Analysis.effect_modes_disagree
    : ∃ a, Analysis.ofText "procedure p \x7b x = y; \x7d" = .ok a
      ∧ a.program.Filled ∧ a.program.CalleesDeclared
      ∧ (effectModes a.knowledge a.knowledge.uses).fixedMember anything (.name "x") = .ok true
      ∧ ¬ ∃ e, a.program.Holds .uses e (.name "x") := by
  refine exists_ok_of (fun a => a.program.Filled ∧ a.program.CalleesDeclared
      ∧ (effectModes a.knowledge a.knowledge.uses).fixedMember anything (.name "x") = .ok true
      ∧ "x" ∉ effectVariables a.knowledge.uses)
    (by decide +kernel) fun a source ⟨filled, declared, answer, unused⟩ => ?_
  obtain ⟨-, -, uses⟩ := KnowledgeBase.ofProgram?_eq_some (Analysis.ofText_eq_ok source).2
  refine ⟨filled, declared, answer, fun used => unused ?_⟩
  exact (uses.mem_effectVariables_iff (Analysis.named source)).mpr used

end ProgramQuery

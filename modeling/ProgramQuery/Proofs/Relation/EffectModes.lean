import ProgramQuery.Proofs.Relation.CallModes

/-! Modifies and Uses are answered exactly between a statement or procedure and a variable. -/

open Relation (ReflTransGen TransGen)

namespace ProgramQuery

open Text ProgramQuery.Relation

section Productive

variable {p : Program} {line : Nat}

theorem Stmt.exists_leaf : ∀ s : Stmt, s.Throughout Stmt.filled →
    ∃ t, Stmt.Within t s ∧ ((∃ v value, t = .assign v value) ∨ ∃ callee, t = .call callee)
  | .assign v value, _ => ⟨_, .refl, .inl ⟨v, value, rfl⟩⟩
  | .call callee, _ => ⟨_, .refl, .inr ⟨callee, rfl⟩⟩
  | .loop _ [], filled => absurd (Stmt.throughout_iff.mp filled).1 (by simp [Stmt.filled])
  | .loop _ (first :: rest), filled => by
      obtain ⟨t, within, leaf⟩ := exists_leaf first
        ((Stmt.throughout_iff.mp filled).2 first (by simp [Stmt.parts]))
      exact ⟨t, within.tail (by simp [Stmt.parts]), leaf⟩
  | .branch _ [] _, filled => absurd (Stmt.throughout_iff.mp filled).1 (by simp [Stmt.filled])
  | .branch _ (first :: rest) _, filled => by
      obtain ⟨t, within, leaf⟩ := exists_leaf first
        ((Stmt.throughout_iff.mp filled).2 first (by simp [Stmt.parts]))
      exact ⟨t, within.tail (by simp [Stmt.parts]), leaf⟩

theorem Program.Filled.throughout (filled : p.Filled) {s : Stmt}
    (listed : (line, s) ∈ p.listing)
    : s.Throughout Stmt.filled := by
  intro t within
  obtain ⟨procedure, declared, outer, inBody, within'⟩ := Program.exists_line_iff.mp ⟨line, listed⟩
  obtain ⟨line', listed'⟩ :=
    Program.exists_line_iff.mpr ⟨procedure, declared, outer, inBody, within.trans within'⟩
  exact filled.filled _ listed'

/-- A procedure from which calls end modifies something. The induction is on the longest chain of
calls from it. -/
theorem Program.Filled.exists_procedureTouches (filled : p.Filled) (declared : p.CalleesDeclared)
    {fuel : Nat} {name : String} {called : List String}
    (ends : p.callGrid.calledWithin fuel name = some called) (fits : p.Fits .procedure (.name name))
    : ∃ v, p.ProcedureTouches Stmt.Assigns name v := by
  induction fuel generalizing name called with
  | zero => simp [Grid.calledWithin] at ends
  | succ fuel ih =>
    obtain ⟨-, procedure, member, rfl⟩ | ⟨impossible, -⟩ := fits
    swap
    · cases impossible
    obtain ⟨start, numbered⟩ := Program.exists_mem_starts member 1
    have nonempty : procedure.body ≠ [] :=
      filled (start, procedure.body)
        (List.mem_append_left _ (List.mem_map.mpr ⟨(start, procedure), numbered, rfl⟩))
    obtain ⟨first, inBody⟩ := List.exists_mem_of_ne_nil _ nonempty
    obtain ⟨line, listed⟩ :=
      Program.exists_line_iff.mpr ⟨procedure, member, first, inBody, .refl⟩
    obtain ⟨t, within, ⟨v, value, rfl⟩ | ⟨callee, rfl⟩⟩ :=
      Stmt.exists_leaf first (filled.throughout listed)
    · exact ⟨v, procedure, member, .refl, first, inBody, _, within, value, rfl⟩
    · have calls : p.Calls procedure.name callee :=
        ⟨procedure, member, rfl, first, inBody, within⟩
      obtain ⟨further, ends'⟩ : ∃ further, p.callGrid.calledWithin fuel callee = some further := by
        rw [Grid.calledWithin] at ends
        cases all : (p.callGrid.columnsOf procedure.name).mapM (p.callGrid.calledWithin fuel) with
        | none => simp [all] at ends
        | some lists =>
          obtain ⟨further, -, same⟩ := (mem_of_forall₂ (mapM_eq_some_iff.mp all)).1 callee
            (Program.mem_columnsOf_callGrid.mpr calls)
          exact ⟨further, same⟩
      obtain ⟨v, does⟩ := ih ends' (declared.relates _ _ calls).2
      exact ⟨v, .of_reached (.single calls) does⟩

theorem Program.Filled.exists_touches (filled : p.Filled) (declared : p.CalleesDeclared)
    (lists : p.Lists p.callGrid.called?) {s : Stmt} (listed : (line, s) ∈ p.listing)
    : ∃ v, p.Touches Stmt.Assigns s v := by
  obtain ⟨t, within, ⟨v, value, rfl⟩ | ⟨callee, rfl⟩⟩ :=
    Stmt.exists_leaf s (filled.throughout listed)
  · exact ⟨v, .of_within within (.own ⟨value, rfl⟩)⟩
  · obtain ⟨procedure, member, outer, inBody, within'⟩ := Program.exists_line_iff.mp ⟨line, listed⟩
    have fits := (declared.relates procedure.name callee
      ⟨procedure, member, rfl, outer, inBody, within.trans within'⟩).2
    obtain ⟨-, other, member', same⟩ | ⟨impossible, -⟩ := id fits
    · obtain ⟨called, ends, -⟩ := lists callee (List.mem_map.mpr ⟨other, member', same⟩)
      obtain ⟨v, does⟩ := filled.exists_procedureTouches declared ends fits
      exact ⟨v, .of_within within (.call does)⟩
    · cases impossible

end Productive

section Touched

variable {p : Program} {own : Stmt → String → Prop} {x y v w : Entity} {kind : Kind}

/-- Whatever a procedure touches is touched by one of its statements or those it calls. -/
theorem Program.ProcedureTouches.exists_own {name z : String}
    (does : p.ProcedureTouches own name z)
    : ∃ line t, (line, t) ∈ p.listing ∧ own t z := by
  obtain ⟨procedure, member, -, s, inBody, t, within, does⟩ := does
  obtain ⟨line, listed⟩ := Program.exists_line_iff.mpr ⟨procedure, member, s, inBody, within⟩
  exact ⟨line, t, listed, does⟩

/-- Whatever a statement touches is touched by the procedure around it. -/
theorem Program.Touches.around {line : Nat} {s : Stmt} {z : String}
    (does : p.Touches own s z) (listed : (line, s) ∈ p.listing)
    : ∃ procedure ∈ p.procedures, p.ProcedureTouches own procedure.name z := by
  obtain ⟨procedure, member, outer, inBody, within⟩ := Program.exists_line_iff.mp ⟨line, listed⟩
  refine ⟨procedure, member, ?_⟩
  rcases Program.touches_iff.mp does with ⟨t, within', does⟩ | ⟨callee, within', does⟩
  · exact ⟨procedure, member, .refl, outer, inBody, t, within'.trans within, does⟩
  · exact .of_reached (.single ⟨procedure, member, rfl, outer, inBody, within'.trans within⟩) does

theorem Stands.text (stands : Stands v x) : v.text = x.text := by
  rcases stands with rfl | rfl <;> rfl

variable (named : p.Named) (mentions : ∀ s z, own s z → s.Assigns z ∨ s.Reads z)

include mentions in
/-- Only variables are touched. -/
theorem Program.TouchedFrom.fits {z : String} (does : p.TouchedFrom own x (.name z))
    : p.Fits .variable (.name z) := by
  have mentioned : ∃ line t, (line, t) ∈ p.listing ∧ own t z := by
    match x, does with
    | .line n, ⟨line, s, listed, does, _⟩ =>
      obtain ⟨procedure, -, does⟩ := does.around listed
      exact does.exists_own
    | .name a, does => exact Program.ProcedureTouches.exists_own does
  obtain ⟨line, t, listed, does⟩ := mentioned
  exact .inr ⟨rfl, line, t, listed, mentions t z does⟩

theorem Program.TouchedFrom.name (does : p.TouchedFrom own x y) : ∃ z, y = .name z := by
  match x, y, does with
  | .line _, .name z, _ => exact ⟨z, rfl⟩
  | .name _, .name z, _ => exact ⟨z, rfl⟩

include named mentions in
/-- A variable is looked up by its name and a number in vain. -/
theorem Program.Askable.touchedFrom_text (askable : p.Askable .variable y)
    : p.TouchedFrom own x (.name y.text) ↔ p.TouchedFrom own x y := by
  rcases askable.cases with ⟨line, rfl, -⟩ | ⟨z, rfl, -⟩
  · constructor
    · intro does
      exact absurd rfl (isName_ne_showInt (named.isName (does.fits mentions)) line)
    · intro does
      obtain ⟨z, ⟨⟩⟩ := does.name
  · rfl

/-- What is recorded for a place under its text. -/
theorem Program.Records.mem_columnsOf_text {effects : Grid Int} (records : p.Records own effects)
    (place : kind ≠ .variable) (askable : p.Askable kind x) {z : String}
    : z ∈ effects.columnsOf x.text ↔ p.TouchedFrom own x (.name z) := by
  rcases askable.cases with ⟨line, rfl, s, listed⟩ | ⟨a, rfl, fits⟩
  · refine (records.statement line s listed z).trans ?_
    constructor
    · exact fun does => ⟨line, s, listed, does, rfl⟩
    · rintro ⟨line', s', listed', does, same⟩
      obtain rfl := Int.ofNat_inj.mp same
      rwa [Program.listing_unique listed listed']
  · obtain ⟨-, procedure, member, rfl⟩ | ⟨impossible, -⟩ := fits
    · exact records.procedure procedure member z
    · exact absurd impossible place

end Touched

section Places

variable {p : Program} {own : Stmt → String → Prop} {keeps : Stmt → Bool} {effects : Grid Int}
  {knowledge : KnowledgeBase} {kind : Kind} (table : p.EffectGrid own keeps effects)
  (describes : knowledge.Describes p) (named : p.Named) (short : p.Short) {line : Nat}

@[simp]
theorem Kind.label_eq_procedure : kind.label = "PROCEDURE" ↔ kind = .procedure := by
  cases kind <;> decide

include describes in
/-- Every place of a kind is among the candidates of that kind. -/
theorem KnowledgeBase.Describes.mem_candidates (place : kind ≠ .variable) {e : Entity}
    : (e ∈ if kind.label = "PROCEDURE" then names knowledge.procedureNames
        else lines (if kind.label = anyStatement then knowledge.statementLines
          else knowledge.linesOfKind kind.label))
      ↔ p.Fits kind e := by
  by_cases procedure : kind = .procedure
  · subst procedure
    rw [if_pos (Kind.label_eq_procedure.mpr rfl)]
    simp only [names, List.mem_map, describes.mem_procedureNames]
    constructor
    · rintro ⟨a, fits, rfl⟩
      exact fits
    · intro fits
      obtain ⟨a, rfl⟩ := fits.exists_name (.inl rfl)
      exact ⟨a, fits, rfl⟩
  · rw [if_neg (by simpa using procedure)]
    have lines_ (n : Int)
        : n ∈ (if kind.label = anyStatement then knowledge.statementLines
          else knowledge.linesOfKind kind.label) ↔ p.Fits kind (.line n) := by
      by_cases special : kind = .statement
      · subst special
        rw [if_pos (Kind.label_eq_anyStatement.mpr rfl), describes.mem_statementLines]
      · rw [if_neg (by simpa using special), describes.mem_linesOfKind special]
    simp only [lines, List.mem_map, lines_]
    constructor
    · rintro ⟨n, fits, rfl⟩
      exact fits
    · intro fits
      cases e with
      | line n => exact ⟨n, fits, rfl⟩
      | missing => exact fits.elim
      | name a =>
        rcases fits with ⟨rfl, -⟩ | ⟨rfl, -⟩
        · exact absurd rfl procedure
        · exact absurd rfl place

/-- A statement with a row of its own. -/
def Program.HasRow (p : Program) (own : Stmt → String → Prop) (keeps : Stmt → Bool) (line : Nat)
    : Prop :=
  ∃ s, (line, s) ∈ p.listing ∧ (keeps s = true ∨ ∃ z, p.Touches own s z)

include table named in
theorem Program.EffectGrid.mem_rowNames_numeral
    : showInt line ∈ effects.rowNames ↔ p.HasRow own keeps line := by
  rw [table.rows]
  constructor
  · rintro (⟨z, does⟩ | ⟨line', s, listed, same, kept⟩)
    · obtain ⟨procedure, member, name⟩ := does.declared
      exact absurd name (isName_ne_showInt (named procedure member).name line)
    · obtain rfl := showInt_inj.mp same
      exact ⟨s, listed, kept⟩
  · rintro ⟨s, listed, kept⟩
    exact .inr ⟨line, s, listed, rfl, kept⟩

include table named short in
/-- The rows that are numerals are the statements with a row of their own. -/
theorem Program.EffectGrid.digitRows_spec
    : ∃ ns, effects.digitRows = .ok ns ∧ Enumerates ns (p.HasRow own keeps) := by
  have numerals (text : String) : text ∈ effects.rowNames.filter isDigits
      ↔ ∃ line : Nat, p.HasRow own keeps line ∧ text = showInt line := by
    rw [List.mem_filter]
    constructor
    · rintro ⟨row, digits⟩
      rcases (table.rows text).mp row with ⟨z, does⟩ | ⟨line, s, listed, rfl, kept⟩
      · obtain ⟨procedure, member, rfl⟩ := does.declared
        obtain ⟨c, cs, heading, letter, -⟩ := isName_iff.mp (named procedure member).name
        rw [not_isDigits_of_isLetter heading letter] at digits
        cases digits
      · exact ⟨line, ⟨s, listed, kept⟩, rfl⟩
    · rintro ⟨line, kept, rfl⟩
      exact ⟨(table.mem_rowNames_numeral named).mpr kept, isDigits_showInt line⟩
  obtain ⟨ns, read, all, -⟩ := exists_mapM_numerals numerals
    fun line ⟨s, listed, _⟩ => short.line_lt ⟨s, listed⟩
  exact ⟨ns, mapM_number read, all⟩

/-- The statements that touch something are those with a row of their own. -/
theorem Program.EffectGrid.kept_iff
    (productive : ∀ s, (line, s) ∈ p.listing → keeps s = true → ∃ z, p.Touches own s z)
    : p.HasRow own keeps line ↔ ∃ z, p.TouchedFrom own (.line line) (.name z) := by
  constructor
  · rintro ⟨s, listed, kept⟩
    obtain ⟨z, does⟩ := kept.elim (productive s listed) id
    exact ⟨z, line, s, listed, does, rfl⟩
  · rintro ⟨z, line', s, listed, does, same⟩
    obtain rfl := Int.ofNat_inj.mp same
    exact ⟨s, listed, .inr ⟨z, does⟩⟩

include table in
/-- The variables in the table are those that any statement or any procedure touches. -/
theorem Program.EffectGrid.mem_effectVariables (named : p.Named) {z : String}
    : (z ∈ effectVariables effects ↔ ∃ x, p.Fits .procedure x ∧ p.TouchedFrom own x (.name z))
      ∧ (z ∈ effectVariables effects ↔ ∃ x, p.Fits .statement x ∧ p.TouchedFrom own x (.name z)) := by
  have records := table.records named
  have columns : z ∈ effectVariables effects ↔ ∃ row, z ∈ effects.columnsOf row := by
    rw [effectVariables, List.mem_eraseDups, table.orderly.mem_allColumns]
  have byProcedure {procedure : Procedure} (member : procedure ∈ p.procedures)
      (does : p.ProcedureTouches own procedure.name z)
      : ∃ x, p.Fits .procedure x ∧ p.TouchedFrom own x (.name z) :=
    ⟨.name procedure.name, .inl ⟨rfl, procedure, member, rfl⟩, does⟩
  have byStatement {line : Nat} {s : Stmt} (listed : (line, s) ∈ p.listing)
      (does : p.Touches own s z)
      : ∃ x, p.Fits .statement x ∧ p.TouchedFrom own x (.name z) :=
    ⟨.line line, Program.fits_statement_line.mpr ⟨s, listed⟩, line, s, listed, does, rfl⟩
  have recorded {kind : Kind} (place : kind ≠ .variable)
      (some : ∃ x, p.Fits kind x ∧ p.TouchedFrom own x (.name z))
      : ∃ row, z ∈ effects.columnsOf row := by
    obtain ⟨x, fits, does⟩ := some
    exact ⟨x.text, (records.mem_columnsOf_text place (.inl fits)).mpr does⟩
  rw [columns]
  refine ⟨⟨?_, recorded (by decide)⟩, ⟨?_, recorded (by decide)⟩⟩
  · rintro ⟨row, cell⟩
    rcases (table.cells row z).mp cell with does | ⟨line, s, listed, -, does⟩
    · obtain ⟨procedure, member, rfl⟩ := does.declared
      exact byProcedure member does
    · obtain ⟨procedure, member, does⟩ := does.around listed
      exact byProcedure member does
  · rintro ⟨row, cell⟩
    rcases (table.cells row z).mp cell with does | ⟨line, s, listed, -, does⟩
    · obtain ⟨line, t, listed, does⟩ := does.exists_own
      exact byStatement listed (.own does)
    · exact byStatement listed does

end Places

section Exact

variable {p : Program} {own : Stmt → String → Prop} {keeps : Stmt → Bool} {effects : Grid Int}
  {knowledge : KnowledgeBase} {kind : Kind} (table : p.EffectGrid own keeps effects)
  (describes : knowledge.Describes p) (named : p.Named) (short : p.Short)
  (mentions : ∀ s z, own s z → s.Assigns z ∨ s.Reads z)
  (productive : ∀ line s, (line, s) ∈ p.listing → kind.admits s = true → keeps s = true →
    ∃ z, p.Touches own s z)
  (place : kind ≠ .variable) {w : Entity}

include table named mentions place in
theorem touches_iff_touchedFrom {x y v : Entity} (left : p.Askable kind x)
    (right : p.Askable .variable y) (standsLeft : Stands v x) (standsRight : Stands w y)
    : touches effects v w = true ↔ p.TouchedFrom own x y := by
  rw [touches, table.marks.marked_iff, standsLeft.text, standsRight.text,
    (table.records named).mem_columnsOf_text place left, right.touchedFrom_text named mentions]

include describes place in
/-- The places of a kind are tested one by one. -/
theorem mem_placesOf {x y : Entity}
    (tests : ∀ x, p.Fits kind x → (touches effects x w = true ↔ p.TouchedFrom own x y))
    : x ∈ placesOf knowledge effects kind.label w ↔ p.Fits kind x ∧ p.TouchedFrom own x y := by
  have filtered : placesOf knowledge effects kind.label w
      = (if kind.label = "PROCEDURE" then names knowledge.procedureNames
        else lines (if kind.label = anyStatement then knowledge.statementLines
          else knowledge.linesOfKind kind.label)).filter (touches effects · w) := by
    unfold placesOf
    split <;> rfl
  rw [filtered, List.mem_filter, describes.mem_candidates place]
  exact and_congr_right (tests x)

include mentions in
/-- The variables touched by places of a kind. -/
theorem mem_names_touched {zs : List String}
    (all : ∀ z, z ∈ zs ↔ ∃ x, p.Fits kind x ∧ p.TouchedFrom own x (.name z)) (y : Entity)
    : y ∈ names zs ↔ p.Fits .variable y ∧ ∃ x, p.Fits kind x ∧ p.TouchedFrom own x y := by
  simp only [names, List.mem_map, all]
  constructor
  · rintro ⟨z, ⟨x, fits, does⟩, rfl⟩
    exact ⟨does.fits mentions, x, fits, does⟩
  · rintro ⟨-, x, fits, does⟩
    obtain ⟨z, rfl⟩ := does.name
    exact ⟨z, ⟨x, fits, does⟩, rfl⟩

include mentions in
theorem exists_touchedFrom_iff {x : Entity}
    : (∃ z, p.TouchedFrom own x (.name z)) ↔ ∃ y, p.Fits .variable y ∧ p.TouchedFrom own x y := by
  constructor
  · exact fun ⟨z, does⟩ => ⟨.name z, does.fits mentions, does⟩
  · rintro ⟨y, -, does⟩
    obtain ⟨z, rfl⟩ := does.name
    exact ⟨z, does⟩

include mentions productive in
/-- The statements of a kind with a row of their own are those that touch something. -/
theorem mem_recorded {candidates rows : List Int} (isStatement : ∀ a, ¬ p.Fits kind (.name a))
    (fits : ∀ n, n ∈ candidates ↔ p.Fits kind (.line n))
    (kept : Enumerates rows (p.HasRow own keeps)) (x : Entity)
    : x ∈ lines (common candidates rows)
      ↔ p.Fits kind x ∧ ∃ y, p.Fits .variable y ∧ p.TouchedFrom own x y := by
  simp only [lines, List.mem_map, mem_common, fits, ← exists_touchedFrom_iff mentions]
  have touched {line : Nat} (fit : p.Fits kind (.line line))
      : p.HasRow own keeps line ↔ ∃ z, p.TouchedFrom own (.line line) (.name z) := by
    obtain ⟨s, listed, admitted⟩ := Program.fits_line.mp fit
    refine Program.EffectGrid.kept_iff fun t listed' => ?_
    exact productive line t listed' (Program.listing_unique listed listed' ▸ admitted)
  constructor
  · rintro ⟨n, ⟨fit, member⟩, rfl⟩
    obtain ⟨line, rfl, -⟩ := fit.exists_line
    exact ⟨fit, (touched fit).mp (kept.mem_iff.mp member)⟩
  · rintro ⟨fit, does⟩
    cases x with
    | name a => exact absurd fit (isStatement a)
    | missing => exact fit.elim
    | line n =>
      obtain ⟨line, rfl, -⟩ := fit.exists_line
      exact ⟨line, ⟨fit, kept.mem_iff.mpr ((touched fit).mpr does)⟩, rfl⟩

include table describes named mentions in
/-- The procedures with a row of their own are those that touch something. -/
theorem mem_recordedProcedures (x : Entity)
    : x ∈ names (common knowledge.procedureNames effects.rowNames)
      ↔ p.Fits .procedure x ∧ ∃ y, p.Fits .variable y ∧ p.TouchedFrom own x y := by
  simp only [names, List.mem_map, mem_common, describes.mem_procedureNames,
    ← exists_touchedFrom_iff mentions]
  constructor
  · rintro ⟨a, ⟨fits, row⟩, rfl⟩
    rcases (table.rows a).mp row with does | ⟨line, s, listed, rfl, -⟩
    · exact ⟨fits, does⟩
    · exact absurd rfl (isName_ne_showInt (named.isName fits) line)
  · rintro ⟨fits, z, does⟩
    obtain ⟨a, rfl⟩ := fits.exists_name (.inl rfl)
    exact ⟨a, ⟨fits, (table.rows a).mpr (.inl ⟨z, does⟩)⟩, rfl⟩

include table describes named short mentions productive place in
theorem effectSides_exact {reason : Prop}
    : Answers reason
        (effectSides knowledge effects kind.label) fun found =>
          (∀ x, x ∈ found.1 ↔ p.Fits kind x ∧ ∃ y, p.Fits .variable y ∧ p.TouchedFrom own x y)
          ∧ ∀ y, y ∈ found.2
            ↔ p.Fits .variable y ∧ ∃ x, p.Fits kind x ∧ p.TouchedFrom own x y := by
  obtain ⟨rows, read, kept⟩ := table.digitRows_spec named short
  unfold effectSides
  by_cases procedure : kind = .procedure
  · subst procedure
    rw [if_pos (Kind.label_eq_procedure.mpr rfl)]
    exact .ok ⟨mem_recordedProcedures table describes named mentions,
      mem_names_touched mentions fun z => (table.mem_effectVariables named).1⟩
  · have isStatement (a : String) : ¬ p.Fits kind (.name a) := by
      rintro (⟨rfl, -⟩ | ⟨rfl, -⟩)
      · exact procedure rfl
      · exact place rfl
    rw [if_neg (by simpa using procedure), effectLines, read]
    by_cases special : kind = .statement
    · subst special
      rw [if_pos (Kind.label_eq_anyStatement.mpr rfl)]
      exact .ok ⟨mem_recorded mentions productive isStatement
          (fun n => describes.mem_statementLines) kept,
        mem_names_touched mentions fun z =>
          (table.mem_effectVariables named).2⟩
    · rw [if_neg (by simpa using special)]
      have places := mem_recorded mentions productive isStatement
        (fun n => describes.mem_linesOfKind special) kept
      refine .ok ⟨places, mem_names_touched mentions fun z => ?_⟩
      simp only [List.mem_eraseDups, List.mem_flatMap, places, touchedBy]
      constructor
      · rintro ⟨x, ⟨fits, -⟩, cell⟩
        exact ⟨x, fits, ((table.records named).mem_columnsOf_text place (.inl fits)).mp cell⟩
      · rintro ⟨x, fits, does⟩
        exact ⟨x, ⟨fits, .name z, does.fits mentions, does⟩,
          ((table.records named).mem_columnsOf_text place (.inl fits)).mpr does⟩

include table describes named short mentions productive place in
theorem Relation.effectModes_exact
    : (effectModes knowledge effects).Exact p (p.TouchedFrom own) kind .variable := by
  constructor
  case member =>
    intro x y v w left right standsLeft standsRight
    exact .ok (touches_iff_touchedFrom table named mentions place left right standsLeft standsRight)
  case after =>
    intro x v left stands
    refine .ok fun y => ?_
    simp only [names, List.mem_map, touchedBy, stands.text,
      (table.records named).mem_columnsOf_text place left]
    constructor
    · rintro ⟨z, does, rfl⟩
      exact ⟨does.fits mentions, does⟩
    · rintro ⟨-, does⟩
      obtain ⟨z, rfl⟩ := does.name
      exact ⟨z, does, rfl⟩
  case before =>
    intro y w right stands
    refine .ok fun x => ?_
    rw [List.mem_filter, mem_placesOf describes place fun x fits =>
      touches_iff_touchedFrom table named mentions place (.inl fits) right (.inl rfl) stands]
    refine and_iff_left_of_imp fun both => ?_
    cases x <;> simp_all [Program.Fits]
  case sides => exact effectSides_exact table describes named short mentions productive place
  case beforeFixed =>
    intro y w right stands fixed
    simp only [effectModes, if_neg fixed]
    exact .ok fun x => mem_placesOf describes place fun x fits =>
      touches_iff_touchedFrom table named mentions place (.inl fits) right (.inl rfl) stands

theorem Relation.effectModes_plain (knowledge : KnowledgeBase) (effects : Grid Int)
    : (effectModes knowledge effects).Plain := by
  constructor <;> intros <;> simp_all [effectModes]

end Exact

end ProgramQuery

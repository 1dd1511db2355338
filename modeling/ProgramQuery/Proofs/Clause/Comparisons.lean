import ProgramQuery.Proofs.Clause.Pattern
import ProgramQuery.Proofs.Evaluation.Outcomes
import ProgramQuery.Proofs.Query.Meaning

/-! What a with clause leaves to its synonym. Where names are compared with names, and statement numbers
with numbers, these are exactly the things whose attribute equals what it is compared with.
-/

namespace ProgramQuery

open Text ProgramQuery.Relation

namespace Query

/-- The things of a synonym's type whose attribute equals a value that it can be compared with. -/
def AttributeCondition.Selects (p : Program) (q : Query) (c : AttributeCondition) (e : Entity) : Prop :=
  ∃ type value, q.typeOf? c.synonym = some type ∧ type.Ranges p e
    ∧ (∃ choice, c.comparand.Denotes p q choice value)
    ∧ match c.attr with
      | none => value = e
      | some a => a.IsOf p e value

/-- A value counts as a thing if it is this thing or writes its number. -/
def Counts (v e : Entity) : Prop :=
  v = e ∨ ∃ digits, v = .name digits ∧ e = .line (numberOf digits)

def EntityType.IsNamed (type : EntityType) : Prop :=
  type = .procedure ∨ type = .var

/-- A comparison between names or between numbers of statements, or of a statement with the constants of
a program, all of which can be read. -/
def AttributeCondition.Plain (p : Program) (q : Query) (c : AttributeCondition) (type : EntityType) : Prop :=
  match c.comparand with
  | .line digits => type ≠ .constant ∧ 0 < numberOf digits
      ∧ (type = .call → c.attr ≠ some .procedureName)
  | .name _ => type = .statement ∨ c.attr ≠ some .number
  | .synonym y _ => ∃ type', q.typeOf? y = some type'
      ∧ (type.IsNamed ∧ type'.IsNamed
        ∨ type = .statement ∧ type' = .constant ∧ ∀ line s, (line, s) ∈ p.listing →
          ∀ digits ∈ Program.literalsOf s, Relation.number digits = .ok (numberOf digits : Int))

section Plain

variable {p : Program} {knowledge : KnowledgeBase} {q : Query} {c : AttributeCondition} {x : String}
  {type : EntityType} {attr : Attribute} {e value : Entity}

/-- The values found are the things that a comparison selects, numbers being held as such or as texts. -/
def AttributeCondition.Finds (p : Program) (q : Query) (c : AttributeCondition) (found : List Entity) : Prop :=
  (∀ e, c.Selects p q e → ∃ v ∈ found, Counts v e) ∧ ∀ v ∈ found, ∃ e, c.Selects p q e ∧ Counts v e

theorem finds_of_iff {found : List Entity} (exact_ : ∀ e, c.Selects p q e ↔ e ∈ found)
    : c.Finds p q found :=
  ⟨fun e selects => ⟨e, (exact_ e).mp selects, .inl rfl⟩,
    fun v member => ⟨v, (exact_ v).mpr member, .inl rfl⟩⟩

theorem not_ranges_name (numbered : ¬ type.IsNamed) : ¬ type.Ranges p (.name x) := by
  intro ranges
  cases type
  case procedure => exact numbered (.inl rfl)
  case var => exact numbered (.inr rfl)
  case constant =>
    obtain ⟨-, -, -, -, -, ⟨⟩⟩ := ranges
  all_goals obtain ⟨other, -⟩ | ⟨other, -⟩ := ranges <;> cases other

variable (describes : knowledge.Describes p)
include describes

theorem ranges_named (named : type.IsNamed)
    : type.Ranges p e ↔ ∃ x ∈ Clause.attributeNames knowledge type.label, e = .name x := by
  have names {kind : Kind} {known : List String} (isNamed : kind = .procedure ∨ kind = .variable)
      (exact_ : ∀ x, x ∈ known ↔ p.Fits kind (.name x))
      : p.Fits kind e ↔ ∃ x ∈ known, e = .name x := by
    constructor
    · intro fits
      obtain ⟨x, rfl⟩ := fits.exists_name isNamed
      exact ⟨x, (exact_ x).mpr fits, rfl⟩
    · rintro ⟨x, known, rfl⟩
      exact (exact_ x).mp known
  rcases named with rfl | rfl
  · exact names (.inl rfl) fun x => describes.mem_procedureNames
  · exact names (.inr rfl) fun x => describes.mem_variableNames

/-- A thing is compared by itself, unless it is a call that is compared by the name it calls. -/
theorem isOf_iff (has : type.has attr = true) (other : type = .call → attr ≠ .procedureName)
    (ranges : type.Ranges p e)
    : attr.IsOf p e value ↔ value = e := by
  cases attr with
  | procedureName =>
    cases type <;> cases has
    · obtain ⟨x, -, rfl⟩ := (ranges_named describes (.inl rfl)).mp ranges
      exact .rfl
    · exact absurd rfl (other rfl)
  | _ => exact .rfl

/-- The values of a comparison with something else than the names of calls. -/
theorem selects_iff (typed : q.typeOf? c.synonym = some type)
    (has : match c.attr with
      | none => type = .line
      | some a => type.has a = true)
    (other : type = .call → c.attr ≠ some .procedureName)
    : c.Selects p q e ↔ type.Ranges p e ∧ ∃ choice, c.comparand.Denotes p q choice e := by
  have compared (ranges : type.Ranges p e) (value : Entity)
      : (match c.attr with
        | none => value = e
        | some a => a.IsOf p e value) ↔ value = e := by
    cases isAttr : c.attr with
    | none => exact .rfl
    | some a =>
      rw [isAttr] at has
      exact isOf_iff describes has (fun call same => other call (isAttr.trans (congrArg _ same))) ranges
  constructor
  · rintro ⟨type', value, typed', ranges, denotes, same⟩
    obtain rfl : type' = type := Option.some.inj (typed'.symm.trans typed)
    obtain rfl := (compared ranges value).mp same
    exact ⟨ranges, denotes⟩
  · rintro ⟨ranges, denotes⟩
    exact ⟨type, e, typed, ranges, denotes, (compared ranges e).mpr rfl⟩

/-- A number is found if it is one of a statement that the synonym can stand for. -/
theorem equalsNumber_eq {digits : String} (has : knowledge.scope.HasLine digits)
    (real : type ≠ .constant) (positive : 0 < numberOf digits)
    : ∃ test : Bool, Clause.equalsNumber knowledge type.label digits
        = .ok (if test then [.name digits] else [])
      ∧ (test = true ↔ type.Ranges p (.line (numberOf digits))) := by
  obtain ⟨reads, small⟩ := has.reads
  have number : Relation.number digits = .ok (numberOf digits : Int) := by
    simp [Relation.number, reads, numberOf]
  have ofKind {kind : Kind} (special : kind ≠ .statement) (isKind : type.kind? = some kind)
      : ((knowledge.linesOfKind kind.label).contains (numberOf digits : Int) = true
        ↔ type.Ranges p (.line (numberOf digits))) := by
    rw [List.contains_iff_mem, describes.mem_linesOfKind special, EntityType.Ranges, isKind]
  have ofStatement (isKind : type.kind? = some .statement)
      : ∃ test : Bool, (if (numberOf digits : Int) > knowledge.statements.length then []
          else [Entity.name digits]) = (if test then [.name digits] else [])
        ∧ (test = true ↔ type.Ranges p (.line (numberOf digits))) := by
    refine ⟨true, if_neg (Int.not_lt.mpr small), iff_of_true rfl ?_⟩
    rw [EntityType.Ranges, isKind]
    refine Program.fits_statement_line.mpr (Program.exists_mem_listing_iff.mpr ⟨positive, ?_⟩)
    exact Int.ofNat_le.mp (describes.length_statements ▸ small)
  unfold Clause.equalsNumber
  rw [number]
  cases type
  case constant => exact absurd rfl real
  case statement | line =>
    obtain ⟨test, same, exact_⟩ := ofStatement rfl
    exact ⟨test, congrArg Except.ok same, exact_⟩
  all_goals exact ⟨_, rfl, ofKind (by decide) rfl⟩

/-- A name is found with the things that have it, unless these are told by their numbers. -/
theorem finds_equalsName {attr : Option Attribute} (typed : q.typeOf? x = some type)
    (has : match attr with
      | none => type = .line
      | some a => type.has a = true)
    (plain : type = .statement ∨ attr ≠ some .number) (z : String)
    : AttributeCondition.Finds p q ⟨x, attr, .name z⟩ (Clause.equalsName knowledge type.label z) := by
  refine finds_of_iff fun e => ?_
  by_cases call : type = .call
  · subst call
    obtain rfl : attr = some .procedureName := by
      rcases attr with - | (- | - | - | -) <;> simp_all [EntityType.has]
    change _ ↔ e ∈ lines (knowledge.linesOfKindAndValue "CALL" z)
    simp only [lines, List.mem_map, mem_linesOfKindAndValue describes]
    constructor
    · rintro ⟨_, _, isType, ranges, ⟨-, rfl⟩, isOf⟩
      obtain rfl := Option.some.inj (typed.symm.trans isType)
      cases e with
      | missing => exact ranges.elim
      | name w => exact absurd ranges (not_ranges_name (by simp [EntityType.IsNamed]))
      | line n =>
        obtain ⟨line, _, listed, rfl, ⟨⟩⟩ := isOf
        exact ⟨line, ⟨line, _, listed, rfl, rfl, rfl⟩, rfl⟩
    · rintro ⟨_, ⟨line, s, listed, kind, rfl, rfl⟩, rfl⟩
      cases s with
      | call callee =>
        exact ⟨.call, _, typed, ⟨line, _, listed, rfl, rfl⟩, ⟨fun _ => .missing, rfl⟩,
          line, callee, listed, rfl, rfl⟩
      | _ => exact absurd kind (by simp [Stmt.kind])
  · rw [selects_iff describes typed has (absurd · call)]
    by_cases named : type.IsNamed
    · have equals : Clause.equalsName knowledge type.label z
          = if (Clause.attributeNames knowledge type.label).contains z then [.name z] else [] := by
        rcases named with rfl | rfl <;> rfl
      rw [ranges_named describes named, equals]
      constructor
      · rintro ⟨⟨_, known, rfl⟩, -, ⟨⟩⟩
        simp [known]
      · intro member
        split at member
        next known =>
          obtain rfl := List.mem_singleton.mp member
          exact ⟨⟨z, List.contains_iff_mem.mp known, rfl⟩, fun _ => .missing, rfl⟩
        next => cases member
    · constructor
      · rintro ⟨ranges, -, rfl⟩
        exact absurd ranges (not_ranges_name named)
      · -- no statement is of one of the general types, and the others are told by their numbers
        have none (general : type = .statement ∨ type = .line ∨ type = .constant)
            : e ∉ lines (knowledge.linesOfKindAndValue type.label z) := by
          simp only [lines, List.mem_map, mem_linesOfKindAndValue describes]
          rintro ⟨_, ⟨line, s, -, kind, -⟩, -⟩
          rcases general with rfl | rfl | rfl <;> cases s <;> simp [Stmt.kind, EntityType.label] at kind
        intro member
        cases type
        case statement => exact absurd member (none (.inl rfl))
        case line => exact absurd member (none (.inr (.inl rfl)))
        case constant => exact absurd member (none (.inr (.inr rfl)))
        case procedure => exact absurd (.inl rfl) named
        case var => exact absurd (.inr rfl) named
        case call => exact absurd rfl call
        all_goals rcases attr with - | (- | - | - | -) <;> simp_all [EntityType.has]

omit describes in
/-- The constants of a program are its literals, as long as these can be read. -/
theorem mem_constantValues (constants : knowledge.constants = p.constants)
    (readable : ∀ line s, (line, s) ∈ p.listing → ∀ digits ∈ Program.literalsOf s,
      Relation.number digits = .ok (numberOf digits : Int))
    : ∃ ns, knowledge.constantValues = .ok ns
      ∧ ∀ n, n ∈ ns ↔ EntityType.constant.Ranges p (.line n) := by
  have literal (digits : String) : digits ∈ p.constants.rowNames
      ↔ ∃ line s, (line, s) ∈ p.listing ∧ digits ∈ Program.literalsOf s := by
    have folds (entries : List (Nat × String)) (g : Grid (List Int))
        : digits ∈ (entries.foldl (fun g (entry : Nat × String) => g.put entry.2 "lines"
            (((g.cell? entry.2 "lines").getD []) ++ [(entry.1 : Int)])) g).rowNames
          ↔ digits ∈ g.rowNames ∨ ∃ entry ∈ entries, entry.2 = digits := by
      induction entries generalizing g with
      | nil => simp
      | cons entry rest ih =>
        rw [List.foldl_cons, ih, Grid.mem_rowNames_put]
        grind
    rw [Program.constants, folds]
    simp [Grid.rowNames, Grid.empty, Keyed.keys]
  have answers : Answers False knowledge.constantValues
      (List.Forall₂ (fun digits n => n = (numberOf digits : Int)) knowledge.constants.rowNames) := by
    refine .mapM fun digits member => ?_
    rw [constants] at member
    obtain ⟨line, s, listed, isLiteral⟩ := (literal digits).mp member
    rw [readable line s listed digits isLiteral]
    exact .ok rfl
  cases values : knowledge.constantValues with
  | error fault =>
    rw [values] at answers
    exact answers.elim
  | ok ns =>
    rw [values, constants] at answers
    refine ⟨ns, rfl, fun n => ⟨fun member => ?_, ?_⟩⟩
    · obtain ⟨digits, isRow, rfl⟩ := (mem_of_forall₂ answers).2 n member
      obtain ⟨line, s, listed, isLiteral⟩ := (literal digits).mp isRow
      exact ⟨line, s, listed, digits, isLiteral, rfl⟩
    · rintro ⟨line, s, listed, digits, isLiteral, ⟨⟩⟩
      obtain ⟨n, member, rfl⟩ := (mem_of_forall₂ answers).1 digits
        ((literal digits).mpr ⟨line, s, listed, isLiteral⟩)
      exact member

/-- Comparing names with names, and numbers with numbers, finds what is asked for. -/
theorem withValues_plain (constants : knowledge.constants = p.constants)
    (typed : q.typeOf? c.synonym = some type) (accepted : c.Accepted knowledge.scope q)
    (plain : c.Plain p q type)
    : ∃ found, Clause.withValues knowledge (q.attributeTree c) = .ok (.ofList found)
      ∧ c.Finds p q found := by
  obtain ⟨x, attr, comparand⟩ := c
  obtain ⟨_, typed', has, fits⟩ := accepted
  obtain rfl := Option.some.inj (typed.symm.trans typed')
  have label : q.typeText x = type.label := typeText_eq typed
  cases comparand with
  | line digits =>
    obtain ⟨real, positive, other⟩ := plain
    obtain ⟨test, equals, tests⟩ := equalsNumber_eq describes fits real positive
    refine ⟨_, by rw [withValues_line, label, equals]; rfl, ?_⟩
    have selects {e : Entity} := selects_iff (e := e) describes typed has other
    constructor
    · intro e selected
      obtain ⟨ranges, -, rfl⟩ := selects.mp selected
      exact ⟨.name digits, by simp [tests.mpr ranges], .inr ⟨digits, rfl, rfl⟩⟩
    · intro v member
      split at member
      next tested =>
        obtain rfl := List.mem_singleton.mp member
        exact ⟨_, selects.mpr ⟨tests.mp tested, fun _ => .missing, rfl⟩, .inr ⟨digits, rfl, rfl⟩⟩
      next => cases member
  | name z =>
    exact ⟨_, by rw [withValues_name, label]; rfl, finds_equalsName describes typed has plain z⟩
  | synonym y a =>
    obtain ⟨right, isRight, kinds⟩ := plain
    obtain ⟨_, isRight', has'⟩ := fits
    obtain rfl := Option.some.inj (isRight.symm.trans isRight')
    have selects (left : type ≠ .call) (other : right ≠ .call) (e : Entity)
        : AttributeCondition.Selects p q ⟨x, attr, .synonym y a⟩ e
          ↔ type.Ranges p e ∧ right.Ranges p e := by
      rw [selects_iff describes typed has (absurd · left)]
      refine and_congr_right fun _ => ⟨?_, fun ranges => ?_⟩
      · rintro ⟨choice, e', ⟨-, _, isType, ranges⟩, isOf⟩
        obtain rfl := Option.some.inj (isRight.symm.trans isType)
        rwa [(isOf_iff describes has' (absurd · other) ranges).mp isOf]
      · exact ⟨fun _ => e, e, ⟨rfl, _, isRight, ranges⟩,
          (isOf_iff describes has' (absurd · other) ranges).mpr rfl⟩
    rw [attributeTree, synonymTree, comparandTree, synonymTree, typed, isRight, withValues_node]
    rcases kinds with ⟨named, named'⟩ | ⟨rfl, rfl, readable⟩
    · refine ⟨names (common (Clause.attributeNames knowledge type.label)
        (Clause.attributeNames knowledge right.label)), ?_, finds_of_iff fun e => ?_⟩
      · rcases named with rfl | rfl <;> rcases named' with rfl | rfl <;> rfl
      · rw [selects (by rcases named with rfl | rfl <;> decide)
          (by rcases named' with rfl | rfl <;> decide), ranges_named describes named,
          ranges_named describes named', names, List.mem_map]
        constructor
        · rintro ⟨⟨z, known, rfl⟩, _, known', ⟨⟩⟩
          exact ⟨z, mem_common.mpr ⟨known, known'⟩, rfl⟩
        · rintro ⟨z, known, rfl⟩
          exact ⟨⟨z, (mem_common.mp known).1, rfl⟩, z, (mem_common.mp known).2, rfl⟩
    · obtain ⟨ns, values, constant⟩ := mem_constantValues constants readable
      refine ⟨lines (ns.filter knowledge.hasLine), ?_, finds_of_iff fun e => ?_⟩
      · change (do return EntitySet.ofList (← Clause.equalsConstant knowledge "STMT" x) : Asked _) = _
        unfold Clause.equalsConstant
        rw [values]
        rfl
      · rw [selects (by decide) (by decide), lines, List.mem_map]
        have isLine (n : Nat)
            : knowledge.hasLine n = true ↔ EntityType.statement.Ranges p (.line n) := by
          rw [EntityType.Ranges, EntityType.kind?]
          change _ ↔ p.Fits .statement _
          rw [Program.fits_statement_line, Program.exists_mem_listing_iff, KnowledgeBase.hasLine,
            describes.length_statements]
          simp [Nat.one_le_iff_ne_zero, Nat.pos_iff_ne_zero]
        constructor
        · rintro ⟨ranges, line, s, listed, digits, isLiteral, rfl⟩
          exact ⟨_, List.mem_filter.mpr ⟨(constant _).mpr ⟨line, s, listed, digits, isLiteral, rfl⟩,
            (isLine _).mpr ranges⟩, rfl⟩
        · rintro ⟨n, member, rfl⟩
          obtain ⟨isConstant, has⟩ := List.mem_filter.mp member
          obtain ⟨line, s, listed, digits, isLiteral, ⟨⟩⟩ := (constant n).mp isConstant
          exact ⟨(isLine _).mp has, line, s, listed, digits, isLiteral, rfl⟩

end Plain

end Query

/-- A with clause leaves exactly what it selects, as long as it compares names with names and statement
numbers with numbers.
-/
theorem Analysis.withValues_exact {text : String} {a : Analysis} (source : Analysis.ofText text = .ok a)
    {q : Query} {c : Query.AttributeCondition} {type : Query.EntityType}
    (accepted : c.Accepted a.knowledge.scope q) (typed : q.typeOf? c.synonym = some type)
    (plain : c.Plain a.program q type)
    : ∃ values, Clause.withValues a.knowledge (q.attributeTree c) = .ok values
      ∧ c.Finds a.program q values.members := by
  have constants : a.knowledge.constants = a.program.constants := by
    have known := (Analysis.ofText_eq_ok source).2
    simp only [KnowledgeBase.ofProgram?, Option.bind_eq_bind, Option.bind_eq_some_iff,
      Option.pure_def, Option.some.injEq] at known
    obtain ⟨uses, -, modifies, -, same⟩ := known
    rw [← same]
  obtain ⟨found, answered, covers, only⟩ :=
    Query.withValues_plain (Analysis.describes source) constants typed accepted plain
  refine ⟨_, answered, fun e selected => ?_, fun v member => only v (List.mem_eraseDups.mp member)⟩
  obtain ⟨v, member, counts⟩ := covers e selected
  exact ⟨v, List.mem_eraseDups.mpr member, counts⟩

/-- A call is found by the name of the procedure that it calls. -/
theorem Analysis.withValues_exact_on_call
    : ∃ a, Analysis.ofText "procedure p \x7b call q; \x7d procedure q \x7b x = 1; \x7d" = .ok a
      ∧ let c : Query.AttributeCondition := ⟨"c", some .procedureName, .name "q"⟩
        let q : Query := ⟨[⟨.call, ["c"]⟩], some "c", []⟩
        ∃ values, Clause.withValues a.knowledge (q.attributeTree c) = .ok values
          ∧ c.Finds a.program q values.members := by
  refine exists_ok_of (fun a => "q" ∈ a.knowledge.procedureNames) (by decide +kernel) ?_
  intro a source known c q
  have typed : q.typeOf? "c" = some .call := by decide
  refine Analysis.withValues_exact source ⟨.call, typed, rfl, by decide +kernel, fun _ => known, ?_⟩ typed
    (.inr ?_)
  · intro other
    cases other
  · decide

/-- A constant is not found by its value. -/
theorem Analysis.withValues_of_constant
    : ∃ a, Analysis.ofText "procedure p \x7b x = 1; \x7d" = .ok a
      ∧ let c : Query.AttributeCondition := ⟨"c", some .value, .line "1"⟩
        let q : Query := ⟨[⟨.constant, ["c"]⟩], some "c", []⟩
        c.Accepted a.knowledge.scope q ∧ c.Selects a.program q (.line 1)
          ∧ Clause.withValues a.knowledge (q.attributeTree c) = .ok ⟨[]⟩ := by
  refine exists_ok_of (fun a => a.knowledge.statements.length = 1
    ∧ (a.program.listing.any fun entry => (Program.literalsOf entry.2).contains "1") = true)
    (by decide +kernel) ?_
  rintro a - ⟨count, literal⟩ c q
  obtain ⟨⟨line, s⟩, listed, isLiteral⟩ := List.any_eq_true.mp literal
  have typed : q.typeOf? "c" = some .constant := by decide
  refine ⟨⟨.constant, typed, rfl, by decide, 1, by decide +kernel, ?_⟩,
    ⟨.constant, .line 1, typed, ?_, ⟨fun _ => .missing, ?_⟩, rfl⟩, rfl⟩
  · simp [KnowledgeBase.scope, count]
  · exact ⟨line, s, listed, "1", List.contains_iff_mem.mp isLiteral, by decide⟩
  · exact (by decide : Entity.line 1 = .line (Query.numberOf "1"))

end ProgramQuery

import ProgramQuery.Proofs.Clause.Nodes
import ProgramQuery.Proofs.Evaluation.Arrangement
import ProgramQuery.Proofs.Evaluation.Restricting
import ProgramQuery.Proofs.Relation.FixedArguments

/-! What a condition leaves to a synonym of which nothing else is known, and what this has to do with what
it leaves to one that has been restricted already.
-/

namespace ProgramQuery

open Text ProgramQuery.Relation Evaluation

namespace Query

def typeText (q : Query) (x : String) : String :=
  ((q.typeOf? x).map EntityType.label).getD ""

def outcome (q : Query) (subject : Subject) (x : String) : Restriction → Asked (Option EntitySet)
  | .comparison c => do return some (← Clause.withValues subject.knowledge (q.attributeTree c))
  | .pattern c => Clause.patternLines subject.program subject.knowledge (q.patternTree c)
  | .relation c => do
      let m ← modes subject.knowledge c.relation.title
      return some (.ofList (← c.opened m (initialType (q.typeText x))))

def Allows (q : Query) (subject : Subject) (x : String) (r : Restriction) (t : String) : Prop :=
  ∃ values, q.outcome subject x r = .ok (some values) ∧ ∃ e ∈ values.members, e.text = t

/-- What a condition leaves depends on the declarations only. -/
theorem allows_congr {q q' : Query} (declarations : q'.declarations = q.declarations)
    : q'.Allows = q.Allows := by
  obtain ⟨_, _, _⟩ := q'
  cases declarations
  rfl

section Types

variable {q : Query} {x : String} {type : EntityType} {kind : Kind}

theorem typeText_eq (typed : q.typeOf? x = some type) : q.typeText x = type.label := by
  simp [typeText, typed]

theorem isFixedKind_label (type : EntityType) : Argument.isFixedKind type.label = false := by
  cases type <;> decide

/-- A program line is any statement. -/
theorem initialType_of_kind (kindOf : type.kind? = some kind)
    : initialType type.label = kind.label := by
  cases type <;> cases kindOf <;> decide

theorem exists_type_of_kindOf (kindOf : q.kindOf? x = some kind)
    : ∃ type, q.typeOf? x = some type ∧ type.kind? = some kind :=
  Option.bind_eq_some_iff.mp kindOf

/-- Only the types of all statements have another label than their kind. -/
theorem label_of_kind (kindOf : type.kind? = some kind) (special : kind ≠ .statement)
    : type.label = kind.label := by
  cases type <;> cases kindOf <;> first | rfl | exact absurd rfl special

end Types

/-- A value by whose text a relation can be asked about a thing that a synonym may stand for. -/
def Suits (p : Program) (kind? : Option Kind) (e : Entity) : Prop :=
  ∃ y, IsPlace y ∧ e.text = y.text ∧ ∀ kind, kind? = some kind → p.Admissible kind y

def IsText (e : Entity) : Prop :=
  ∃ t, e = .name t

def IsNumber (e : Entity) : Prop :=
  ∃ n : Nat, e = .line n

section Values

variable {p : Program} {knowledge : KnowledgeBase} {type : EntityType} {kind? : Option Kind}
  {e e' : Entity}

theorem IsText.eq_of_text (first : IsText e) (second : IsText e') (same : e.text = e'.text)
    : e = e' := by
  obtain ⟨t, rfl⟩ := first
  obtain ⟨t', rfl⟩ := second
  exact congrArg Entity.name same

theorem IsNumber.eq_of_text (first : IsNumber e) (second : IsNumber e') (same : e.text = e'.text)
    : e = e' := by
  obtain ⟨n, rfl⟩ := first
  obtain ⟨n', rfl⟩ := second
  exact congrArg (fun n : Nat => Entity.line n) (showInt_injective same)

theorem Suits.of_fits {kind : Kind} (named : p.Named) (fits : p.Fits kind e)
    (only : ∀ k, kind? = some k → k = kind)
    : Suits p kind? e :=
  ⟨e, fits.isPlace named, rfl, fun k isKind => .inl (only k isKind ▸ fits)⟩

variable (describes : knowledge.Describes p)
include describes

/-- The statements with the label of a type are things that its synonyms stand for. -/
theorem suits_of_mem_linesOfKind {n : Int} (member : n ∈ knowledge.linesOfKind type.label)
    : IsNumber (.line n) ∧ Suits p type.kind? (.line n) := by
  obtain ⟨line, s, listed, rfl⟩ : ∃ line s, (line, s) ∈ p.listing ∧ ((line : Nat) : Int) = n := by
    simp only [KnowledgeBase.linesOfKind, describes.statements, Program.statementEntries,
      List.mem_map, List.mem_filter] at member
    obtain ⟨entry, ⟨⟨⟨line, s⟩, listed, rfl⟩, -⟩, rfl⟩ := member
    exact ⟨line, s, listed, rfl⟩
  refine ⟨⟨line, rfl⟩, .line line, ⟨line, rfl⟩, rfl, fun kind kindOf => .inl ?_⟩
  by_cases special : kind = .statement
  · subst special
    exact Program.fits_statement_line.mpr ⟨s, listed⟩
  · rw [label_of_kind kindOf special] at member
    exact (describes.mem_linesOfKind special).mp member

end Values

section Clauses

variable {p : Program} {knowledge : KnowledgeBase} {program : Tree} {type : EntityType} {q : Query}
  {x a digits : String} {values : EntitySet} {e : Entity} {attr : Option Attribute}

theorem mem_linesOfKind_of_value {kind value : String} {n : Int}
    (member : n ∈ knowledge.linesOfKindAndValue kind value)
    : n ∈ knowledge.linesOfKind kind := by
  simp only [KnowledgeBase.linesOfKindAndValue, KnowledgeBase.linesOfKind, List.mem_map,
    List.mem_filter, Bool.and_eq_true] at member ⊢
  obtain ⟨s, ⟨listed, same, -⟩, isLine⟩ := member
  exact ⟨s, ⟨listed, same⟩, isLine⟩

theorem withValues_name : Clause.withValues knowledge (q.attributeTree ⟨x, attr, .name a⟩)
      = pure (.ofList (Clause.equalsName knowledge (q.typeText x) a)) :=
  rfl

theorem withValues_line : Clause.withValues knowledge (q.attributeTree ⟨x, attr, .line digits⟩)
      = (do return .ofList (← Clause.equalsNumber knowledge (q.typeText x) digits)) :=
  rfl

/-- The trees of all patterns begin with the synonym and the variable. -/
theorem patternTree_eq (q : Query) (c : PatternCondition)
    : ∃ title rest, q.patternTree c
        = .node title "" 0 (q.synonymTree c.synonym [] :: q.referenceTree c.target :: rest) := by
  cases c <;> exact ⟨_, _, rfl⟩

theorem answers_candidates (c : PatternCondition)
    : Answers True (Clause.candidates knowledge (q.patternTree c)) fun found =>
        ∀ n ∈ found, n ∈ knowledge.linesOfKind (q.typeText c.synonym) := by
  obtain ⟨title, rest, shape⟩ := patternTree_eq q c
  obtain ⟨kind, text, target⟩ : ∃ kind text, q.referenceTree c.target = .leaf kind text := by
    cases c.target <;> exact ⟨_, _, rfl⟩
  rw [shape, target]
  refine Eq.mpr (congrArg (Answers True · _) candidates_node) (Answers.ok fun n member => ?_)
  split at member
  · exact member
  · exact mem_linesOfKind_of_value member

theorem answers_fittingAssignments (pattern : Tree) (found : List Int)
    : Answers True (Clause.fittingAssignments program pattern found) fun kept =>
        ∀ n ∈ kept, n ∈ found := by
  have subset (f : Int → Asked Bool)
      : Answers True (found.filterM f) fun kept => ∀ n ∈ kept, n ∈ found := by
    have each : ∀ n ∈ found, Answers True (f n) fun holds => holds = true ↔ f n = .ok true := by
      intro n _
      cases tested : f n <;> simp [Answers]
    exact (Answers.filterM each).mono fun kept all n member => ((all n).mp member).1
  refine (Answers.trivial _).bind fun kind _ => ?_
  split
  · exact .ok fun _ => id
  · split <;> exact subset _

/-- A pattern selects some of the statements that have the type of its synonym. -/
theorem answers_patternLines (c : PatternCondition)
    : Answers True (Clause.patternLines program knowledge (q.patternTree c)) fun found? =>
        ∀ values ∈ found?, ∀ e ∈ values.members,
          ∃ n ∈ knowledge.linesOfKind (q.typeText c.synonym), e = .line n := by
  have lines {found : List Int} {values : EntitySet} {e : Entity}
      (known : ∀ n ∈ found, n ∈ knowledge.linesOfKind (q.typeText c.synonym))
      (selected : values ∈ some (EntitySet.ofList (lines found))) (member : e ∈ values.members)
      : ∃ n ∈ knowledge.linesOfKind (q.typeText c.synonym), e = .line n := by
    cases selected
    obtain ⟨n, isFound, rfl⟩ := List.mem_map.mp (List.mem_eraseDups.mp member)
    exact ⟨n, known n isFound, rfl⟩
  unfold Clause.patternLines
  refine (Answers.trivial _).bind fun kind _ => (answers_candidates c).bind fun found known => ?_
  split
  · exact .ok fun values selected e => lines known selected
  · split
    · exact .ok fun values selected => nomatch selected
    · refine (Answers.trivial _).bind fun pattern _ => ?_
      refine (answers_fittingAssignments pattern found).bind fun kept subset => ?_
      exact .ok fun values selected e => lines (fun n member => known n (subset n member)) selected

variable (describes : knowledge.Describes p)
include describes

theorem suits_equalsNumber (has : knowledge.scope.HasLine digits)
    (bare : IsBare digits) {found : List Entity}
    (equals : Clause.equalsNumber knowledge type.label digits = .ok found) (member : e ∈ found)
    : IsText e ∧ Suits p type.kind? e := by
  obtain ⟨n, rfl⟩ := bare
  obtain ⟨reads, small⟩ := has.readInt?_bare
  have below : n ≤ p.size := Int.ofNat_le.mp (describes.length_statements ▸ small)
  have number : Relation.number (showInt n) = .ok (n : Int) := by simp [Relation.number, reads]
  rw [Clause.equalsNumber, number, show (Except.ok (n : Int) : Asked Int) = pure (n : Int) from rfl,
    pure_bind] at equals
  by_cases constant : type.label = "CONSTANT"
  · rw [if_pos constant] at equals
    cases equals
    cases member
  rw [if_neg constant] at equals
  by_cases special : type.label = "STMT" ∨ type.label = "PROG_LINE"
  · rw [if_pos special] at equals
    cases equals
    obtain rfl : e = .name (showInt n) := by
      split at member
      · cases member
      · exact List.mem_singleton.mp member
    refine ⟨⟨_, rfl⟩, .line n, ⟨n, rfl⟩, rfl, fun kind kindOf => .inr ⟨?_, n, below, rfl⟩⟩
    cases type <;> simp [EntityType.label] at special <;> cases kindOf <;> rfl
  · rw [if_neg special] at equals
    cases equals
    split at member
    next known =>
      obtain rfl := List.mem_singleton.mp member
      obtain ⟨y, place, same, admissible⟩ :=
        (suits_of_mem_linesOfKind describes (List.contains_iff_mem.mp known)).2
      exact ⟨⟨_, rfl⟩, y, place, same, admissible⟩
    next => cases member

theorem suits_equalsName (named : p.Named)
    (member : e ∈ Clause.equalsName knowledge type.label a)
    : (if type.isNumbered then IsNumber e else IsText e) ∧ Suits p type.kind? e := by
  have numbered (isLine : e ∈ lines (knowledge.linesOfKindAndValue type.label a))
      : IsNumber e ∧ Suits p type.kind? e := by
    obtain ⟨n, known, rfl⟩ := List.mem_map.mp isLine
    exact suits_of_mem_linesOfKind describes (mem_linesOfKind_of_value known)
  have textual {kind : Kind} {known : List String} (kindOf : type.kind? = some kind)
      (fits : ∀ a ∈ known, p.Fits kind (.name a))
      (isName : e ∈ if known.contains a then [Entity.name a] else [])
      : IsText e ∧ Suits p type.kind? e := by
    split at isName
    next has =>
      obtain rfl := List.mem_singleton.mp isName
      refine ⟨⟨a, rfl⟩, .of_fits named (fits a (List.contains_iff_mem.mp has)) fun k isKind => ?_⟩
      exact Option.some.inj (isKind.symm.trans kindOf)
    next => cases isName
  cases type
  case procedure => exact textual rfl (fun a => describes.mem_procedureNames.mp) member
  case var => exact textual rfl (fun a => describes.mem_variableNames.mp) member
  all_goals exact numbered member

/-- What comparisons and patterns leave are things that the synonym stands for, as texts or as
numbers. -/
theorem suits_outcome {subject : Subject} (known : subject.knowledge = knowledge) (named : p.Named)
    (typed : q.typeOf? x = some type) {r : Restriction} (concerns : r.Concerns x)
    (accepted : r.Accepted knowledge.scope q) (steady : r.Steady (q.kindOf? x))
    (unrelated : r.relation? = none) (found : q.outcome subject x r = .ok (some values))
    (member : e ∈ values.members)
    : ((r.LeavesTexts ∧ IsText e)
        ∨ (r.LeavesNumbers ∧ if type.isNumbered then IsNumber e else IsText e))
      ∧ Suits p type.kind? e := by
  subst known
  cases r with
  | relation c => cases unrelated
  | pattern c =>
    obtain ⟨rfl, -⟩ := concerns
    have lines := @answers_patternLines subject.knowledge subject.program q c
    rw [show Clause.patternLines _ _ _ = _ from found] at lines
    obtain ⟨n, listed, rfl⟩ := lines values rfl e member
    rw [typeText_eq typed] at listed
    obtain ⟨number, suits⟩ := suits_of_mem_linesOfKind describes listed
    have numbered : type.isNumbered = true := by
      cases c <;> cases typed.symm.trans accepted.1 <;> rfl
    exact ⟨.inr ⟨trivial, by rwa [if_pos numbered]⟩, suits⟩
  | comparison c =>
    obtain ⟨x, attr, comparand⟩ := c
    obtain ⟨rfl, fixed⟩ := concerns
    obtain ⟨type', typed', -, fits⟩ := accepted
    obtain rfl : type' = type := Option.some.inj (typed'.symm.trans typed)
    have label : q.typeText x = type'.label := typeText_eq typed
    cases comparand with
    | synonym y a => exact fixed.elim
    | name a =>
      rw [outcome, withValues_name, label] at found
      cases found
      obtain ⟨shape, suits⟩ :=
        suits_equalsName describes named (List.mem_eraseDups.mp member)
      exact ⟨.inr ⟨⟨a, rfl⟩, shape⟩, suits⟩
    | line digits =>
      rw [outcome, withValues_line, label] at found
      cases tested : Clause.equalsNumber subject.knowledge type'.label digits with
      | error fault =>
        rw [tested] at found
        cases found
      | ok kept =>
        rw [tested] at found
        cases found
        obtain ⟨text, suits⟩ := suits_equalsNumber describes fits (steady digits rfl) tested
          (List.mem_eraseDups.mp member)
        exact ⟨.inl ⟨⟨digits, rfl⟩, text⟩, suits⟩

end Clauses

section Restricts

variable {p : Program} {knowledge : KnowledgeBase} {subject : Subject} {q : Query} {x : String}
  {type : EntityType}

theorem Restricts.exists_type (restricts : q.Restricts knowledge.scope x)
    : ∃ type, q.typeOf? x = some type := by
  obtain ⟨r, member⟩ := List.exists_mem_of_ne_nil _ restricts.restricted
  have concerns := restricts.concerns r member
  have accepted := restricts.accepted r member
  have steady := restricts.steady r member
  cases r with
  | comparison c =>
    obtain ⟨rfl, -⟩ := concerns
    obtain ⟨type, typed, -⟩ := accepted
    exact ⟨type, typed⟩
  | pattern c =>
    obtain ⟨rfl, -⟩ := concerns
    cases c <;> exact ⟨_, accepted.1⟩
  | relation c =>
    obtain ⟨kind, kindOf, -⟩ := steady.typed
    obtain ⟨type, typed, -⟩ := exists_type_of_kindOf kindOf
    exact ⟨type, typed⟩

/-- What comparisons and patterns leave are all texts or all numbers. -/
theorem Restricts.exists_shape (restricts : q.Restricts knowledge.scope x)
    (known : subject.knowledge = knowledge) (describes : knowledge.Describes p) (named : p.Named)
    (typed : q.typeOf? x = some type)
    : ∃ shape : Entity → Prop, (∀ e e', shape e → shape e' → e.text = e'.text → e = e')
        ∧ ∀ r ∈ q.restrictions, r.relation? = none → ∀ values,
          q.outcome subject x r = .ok (some values) →
            ∀ e ∈ values.members, shape e ∧ Suits p type.kind? e := by
  have suits {r : Restriction} (member : r ∈ q.restrictions) (unrelated : r.relation? = none)
      {values : EntitySet} (found : q.outcome subject x r = .ok (some values)) {e : Entity}
      (isLeft : e ∈ values.members) :=
    suits_outcome describes known named typed (restricts.concerns r member)
      (restricts.accepted r member) (restricts.steady r member) unrelated found isLeft
  -- numbers are left where no condition leaves texts, and texts everywhere else
  by_cases numbers : type.isNumbered = true ∧ ∀ r ∈ q.restrictions, ¬ r.LeavesTexts
  · refine ⟨IsNumber, fun _ _ => IsNumber.eq_of_text, fun r member unrelated values found e isLeft => ?_⟩
    obtain ⟨shape, suits⟩ := suits member unrelated found isLeft
    obtain ⟨-, number⟩ := shape.resolve_left fun texts => numbers.2 r member texts.1
    rw [if_pos numbers.1] at number
    exact ⟨number, suits⟩
  · refine ⟨IsText, fun _ _ => IsText.eq_of_text, fun r member unrelated values found e isLeft => ?_⟩
    obtain ⟨shape, suits⟩ := suits member unrelated found isLeft
    refine ⟨?_, suits⟩
    rcases shape with ⟨-, text⟩ | ⟨leaves, either⟩
    · exact text
    · by_cases numbered : type.isNumbered = true
      · have noNumbers := (restricts.alike type typed numbered).resolve_left fun noTexts =>
          numbers ⟨numbered, noTexts⟩
        exact absurd leaves (noNumbers r member)
      · rwa [if_neg numbered] at either

end Restricts

/-- What is found for the synonym of a condition, by what is known of it. -/
def RelationCondition.found (m : Asked Modes) (c : RelationCondition) : Cell → Asked (List Entity)
  | .set values => values.members.filterM fun e => do c.tested (← m) e.byText
  | type => do c.opened (← m) type.typeText

section Relations

variable {p : Program} {subject : Subject} {q : Query} {x : String} {kind : Kind}
  {c : RelationCondition} {t : String} {m : Modes} {s : Sheet} {done : List Restriction}
  {final : EntitySet}

theorem modes_title (r : RelationName) (knowledge : KnowledgeBase)
    : modes knowledge r.title
      = match r.modes? knowledge with
        | some m => .ok m
        | none => .error (.unknownName r.title) := by
  rw [modes, RelationName.ofTitle?_title]
  rfl

/-- The starred forms of Modifies and Uses allow nothing. -/
theorem not_allows_of_modes (unknown : c.relation.modes? subject.knowledge = none)
    : ¬ q.Allows subject x (.relation c) t := by
  rintro ⟨values, found, -⟩
  rw [outcome, modes_title, unknown] at found
  cases found

theorem allows_relation_iff (kindOf : q.kindOf? x = some kind)
    (asked : c.relation.modes? subject.knowledge = some m) {found : List Entity}
    (opened : c.opened m kind.label = .ok found)
    : q.Allows subject x (.relation c) t ↔ ∃ e ∈ found, e.text = t := by
  obtain ⟨type, typed, isKind⟩ := exists_type_of_kindOf kindOf
  have outcome : q.outcome subject x (.relation c) = .ok (some (.ofList found)) := by
    rw [outcome, modes_title, asked, typeText_eq typed, initialType_of_kind isKind]
    change (do return some (EntitySet.ofList (← c.opened m kind.label)) : Asked _) = _
    rw [opened]
    rfl
  simp [Allows, outcome, EntitySet.ofList]

variable (setting : Setting p subject.knowledge) (concerns : (Restriction.relation c).Concerns x)
  (kindOf : q.kindOf? x = some kind) (steady : c.Steady (some kind))
  (accepted : c.Accepted subject.knowledge.scope q)
include setting concerns kindOf steady accepted

/-- A condition allows the texts of the things that it holds for. -/
theorem allows_iff_holds (asked : c.relation.modes? subject.knowledge = some m) {y : Entity}
    (admissible : p.Admissible kind y)
    : q.Allows subject x (.relation c) y.text ↔ c.Says (p.Holds c.relation) y := by
  have told := c.told concerns setting kindOf steady accepted asked
  have answers := told.opened
  cases opened : c.opened m kind.label with
  | error fault =>
    rw [opened] at answers
    exact answers.elim
  | ok found =>
    rw [allows_relation_iff kindOf asked opened]
    exact told.exists_text_iff setting.named opened admissible

/-- A synonym of which nothing is known, or to which nothing is left. -/
theorem answers_found_open
    (restricted : s.Restricted x (Suits p (some kind)) (q.Allows subject x) done)
    (leaves : s.Leaves x none ∨ ∃ final, s.Leaves x (some final) ∧ final.members = [])
    : Answers (Excludes (q.Allows subject x) done (.relation c))
        (c.found (modes subject.knowledge c.relation.title) (.text (initialType (q.typeText x))))
        (s.Picks x (Suits p (some kind)) (q.Allows subject x) done (.relation c)) := by
  obtain ⟨type, typed, isKind⟩ := exists_type_of_kindOf kindOf
  rw [modes_title, typeText_eq typed, initialType_of_kind isKind]
  cases asked : c.relation.modes? subject.knowledge with
  | none => exact fun t _ => not_allows_of_modes asked
  | some m =>
    have told := (c.told concerns setting kindOf steady accepted asked).opened
    change Answers _ (c.opened m kind.label) _
    cases opened : c.opened m kind.label with
    | error fault =>
      rw [opened] at told
      exact told.elim
    | ok found =>
      rw [opened] at told
      have suits : ∀ e ∈ found, Suits p (some kind) e := by
        intro e member
        obtain ⟨y, same, fits, -⟩ := told.1 e member
        refine ⟨y, fits.isPlace setting.named, same, fun k isKind => ?_⟩
        cases isKind
        exact .inl fits
      refine Answers.ok ⟨fun t before => ?_, fun e member _ => suits e member⟩
      rw [allows_relation_iff kindOf asked opened]
      refine exists_congr fun e => and_congr_right fun _ =>
        (and_iff_right_of_imp fun _ final left => ?_).symm
      -- where nothing is left, all values are found again, but no text is allowed so far
      rcases leaves with nothing | ⟨final', leaves, empty⟩
      · cases nothing.1.symm.trans left
      · obtain ⟨e', member', -⟩ := ((restricted.of_leaves leaves).1 t).mpr before
        rw [empty] at member'
        cases member'

/-- A synonym that has been restricted is tested value by value. -/
theorem answers_found_set
    (restricted : s.Restricted x (Suits p (some kind)) (q.Allows subject x) done)
    (leaves : s.Leaves x (some final))
    : Answers (Excludes (q.Allows subject x) done (.relation c))
        (c.found (modes subject.knowledge c.relation.title) (.set final))
        (s.Picks x (Suits p (some kind)) (q.Allows subject x) done (.relation c)) := by
  obtain ⟨texts, suits⟩ := restricted.of_leaves leaves
  have isOpen {e : Entity} : s.IsOpen x e ↔ e ∈ final.members :=
    ⟨fun all => all final leaves.1, fun member final' left => by
      cases left.symm.trans leaves.1
      exact member⟩
  have each (e : Entity) (member : e ∈ final.members)
      : Answers (Excludes (q.Allows subject x) done (.relation c))
          (do c.tested (← modes subject.knowledge c.relation.title) e.byText)
          fun answer => answer = true ↔ q.Allows subject x (.relation c) e.text := by
    obtain ⟨y, -, same, admissible⟩ := suits e member
    have admissible := admissible kind rfl
    rw [modes_title, Entity.byText, same]
    cases asked : c.relation.modes? subject.knowledge with
    | none => exact fun t _ => not_allows_of_modes asked
    | some m =>
      have told := c.told concerns setting kindOf steady accepted asked
      refine ((told.tested y admissible).because False.elim).mono fun answer exact_ => ?_
      exact exact_.trans
        (allows_iff_holds setting concerns kindOf steady accepted asked admissible).symm
  refine (Answers.filterM each).mono fun found kept => ⟨fun t before => ?_, fun e _ open_ => ?_⟩
  · constructor
    · intro allowed
      obtain ⟨e, member, rfl⟩ := (texts t).mpr before
      exact ⟨e, (kept e).mpr ⟨member, allowed⟩, isOpen.mpr member, rfl⟩
    · rintro ⟨e, member, -, rfl⟩
      exact ((kept e).mp member).2
  · exact suits e (isOpen.mp open_)

end Relations

section Meaning

variable {p : Program} {subject : Subject} {q : Query} {x : String} {kind : Kind}
  {c c' : RelationCondition} {t : String}

theorem RelationCondition.Says.of_imp {rel rel' : Entity → Entity → Prop} {e : Entity}
    (said : c.Says rel e) (implies : ∀ e e', rel e e' → rel' e e')
    : c.Says rel' e := by
  unfold RelationCondition.Says at said ⊢
  split at said
  · exact said.imp fun y ⟨means, holds⟩ => ⟨means, implies _ _ holds⟩
  · exact said.imp fun y ⟨means, holds⟩ => ⟨means, implies _ _ holds⟩

/-- A relation allows the texts of the things of a kind that it holds for. -/
theorem Restricts.allows_iff (restricts : q.Restricts subject.knowledge.scope x)
    (setting : Setting p subject.knowledge) (kindOf : q.kindOf? x = some kind)
    (member : .relation c ∈ q.restrictions)
    : q.Allows subject x (.relation c) t
      ↔ ∃ e, p.Fits kind e ∧ c.Says (p.Holds c.relation) e ∧ e.text = t := by
  have concerns := restricts.concerns _ member
  have steady : c.Steady (some kind) := kindOf ▸ restricts.steady _ member
  have accepted := restricts.accepted _ member
  cases asked : c.relation.modes? subject.knowledge with
  | none =>
    have never (e e' : Entity) (holds : p.Holds c.relation e e') : False := by
      revert asked holds
      cases c.relation <;> simp [RelationName.modes?, Program.Holds]
    refine iff_of_false (not_allows_of_modes asked) ?_
    rintro ⟨e, -, said, -⟩
    have nothing : c.Says (fun _ _ => False) e := said.of_imp never
    unfold RelationCondition.Says at nothing
    split at nothing <;> exact nothing.elim fun y both => both.2
  | some m =>
    have answers := (c.told concerns setting kindOf steady accepted asked).opened
    cases opened : c.opened m kind.label with
    | error fault =>
      rw [opened] at answers
      exact answers.elim
    | ok found =>
      rw [opened] at answers
      rw [allows_relation_iff kindOf asked opened]
      constructor
      · rintro ⟨e, isFound, rfl⟩
        obtain ⟨y, same, fits, said⟩ := answers.1 e isFound
        exact ⟨y, fits, said, same.symm⟩
      · rintro ⟨e, fits, said, rfl⟩
        exact answers.2 e fits said

/-- A condition with a star allows all that the condition without it allows. -/
theorem Restricts.allows_of_plain (restricts : q.Restricts subject.knowledge.scope x)
    (setting : Setting p subject.knowledge) (kindOf : q.kindOf? x = some kind)
    (member : .relation c ∈ q.restrictions) (member' : .relation c' ∈ q.restrictions)
    (first : c'.first = c.first) (second : c'.second = c.second)
    (plain : c'.relation = c.relation.plain) (allowed : q.Allows subject x (.relation c') t)
    : q.Allows subject x (.relation c) t := by
  obtain ⟨e, fits, said, same⟩ := (restricts.allows_iff setting kindOf member').mp allowed
  refine (restricts.allows_iff setting kindOf member).mpr ⟨e, fits, ?_, same⟩
  have said' := said.of_imp fun e e' holds => holds_of_plain (plain ▸ holds)
  rwa [RelationCondition.Says, first, second] at said'

end Meaning

end Query

end ProgramQuery

import ProgramQuery.Proofs.Query.Restrictions
import ProgramQuery.Proofs.Relation.CallAgreement
import ProgramQuery.Proofs.Relation.EffectAgreement
import ProgramQuery.Proofs.Relation.StatementAgreement
import ProgramQuery.Session

/-! Relations between a synonym and a fixed argument. What is found for an open synonym is what a test of
single values tells, by the texts of the values.
-/

open Relation (TransGen)

namespace ProgramQuery

open Text ProgramQuery.Relation

namespace Setting

variable {p : Program} {knowledge : KnowledgeBase} (setting : Setting p knowledge) {kind : Kind}
include setting

theorem describes : knowledge.Describes p :=
  KnowledgeBase.describes_of_ofProgram? setting.known

theorem modifies_agree (place : kind ≠ .variable)
    : { effectModes knowledge knowledge.modifies with
        fixedMember := (effectModes knowledge knowledge.modifies).fixedFixed }.Agree p
        (p.TouchedFrom Stmt.Assigns) StandsForPlace StandsForVariable Stands kind .variable := by
  obtain ⟨lists, modifies, -⟩ := KnowledgeBase.ofProgram?_eq_some setting.known
  exact effectModes_agree modifies setting.describes setting.named setting.short
    (fun _ _ => .inl)
    (fun _ _ listed _ => setting.filled.exists_touches setting.declared lists listed) place

theorem uses_agree (place : kind ≠ .variable)
    : { effectModes knowledge knowledge.uses with
        fixedMember := (effectModes knowledge knowledge.uses).fixedFixed }.Agree p
        (p.TouchedFrom Stmt.Reads) StandsForPlace StandsForVariable Stands kind .variable := by
  obtain ⟨-, -, uses⟩ := KnowledgeBase.ofProgram?_eq_some setting.known
  exact effectModes_agree uses setting.describes setting.named setting.short (fun _ _ => .inr)
    (fun _ _ _ kept => by cases kept) place

theorem callsStar_agree
    : (CallsStar.modes knowledge).Agree p (onNames (TransGen p.Calls)) StandsForName StandsForName
        (· = ·) .procedure .procedure := by
  obtain ⟨lists, -, -⟩ := KnowledgeBase.ofProgram?_eq_some setting.known
  exact CallsStar.modes_agree setting.describes setting.declared lists

end Setting

/-- What a synonym of a kind may have been restricted to. A comparison with a number does not look up the
statement, so that any number up to the last line can be left to a synonym for all statements.
-/
def Program.Admissible (p : Program) (kind : Kind) (x : Entity) : Prop :=
  p.Fits kind x ∨ kind = .statement ∧ ∃ n : Nat, n ≤ p.size ∧ x = .line n

section Admissible

variable {p : Program} {kind : Kind} {x y : Entity}

theorem Program.Admissible.isPlace (admissible : p.Admissible kind x) (named : p.Named)
    : IsPlace x := by
  rcases admissible with fits | ⟨-, n, -, rfl⟩
  · exact fits.isPlace named
  · exact ⟨n, rfl⟩

/-- Statements are tested by their numbers. -/
theorem Program.Admissible.readsLine (admissible : p.Admissible kind x) (short : p.Short)
    (numbered : kind ≠ .procedure ∧ kind ≠ .variable)
    : ReadsLine x.byText x := by
  have line : ∃ n : Nat, n ≤ p.size ∧ x = .line n := by
    rcases admissible with fits | ⟨-, line⟩
    · match x, fits with
      | .line _, fits =>
        obtain ⟨n, rfl, listed⟩ := fits.exists_line
        exact ⟨n, (Program.exists_mem_listing_iff.mp listed).2, rfl⟩
      | .name _, .inl ⟨same, _⟩ => exact absurd same numbered.1
      | .name _, .inr ⟨same, _⟩ => exact absurd same numbered.2
    · exact line
  obtain ⟨n, small, rfl⟩ := line
  refine ⟨n, ?_, rfl⟩
  simp [Relation.numberOf, Entity.byText, Entity.text, number,
    readInt?_showInt (Nat.lt_of_le_of_lt small short)]

/-- A statement that exists fits if it may be tested at all. -/
theorem Program.Admissible.fits (admissible : p.Admissible kind x) (statement : p.Fits .statement x)
    : p.Fits kind x := by
  rcases admissible with fits | ⟨rfl, -⟩
  · exact fits
  · exact statement

theorem Program.Admissible.standsForPlace (admissible : p.Admissible kind x) (named : p.Named)
    : StandsForPlace x.byText x :=
  ⟨.inr rfl, admissible.isPlace named⟩

/-- Values of one kind are told apart by their texts. -/
theorem Program.Admissible.eq_of_text {kind' : Kind} (admissible : p.Admissible kind x)
    (admissible' : p.Admissible kind' y) (named : p.Named) (same : x.text = y.text)
    : x = y :=
  (admissible.isPlace named).eq_of_text (admissible'.isPlace named) same

end Admissible

/-- Asking for all values and testing values one by one tells the same property of the things of a
kind. -/
structure Told (p : Program) (kind : Kind) (opened : Asked (List Entity))
    (tested : Entity → Asked Bool) (holds : Entity → Prop)
    : Prop where
  opened : Answers False opened fun found =>
    (∀ e ∈ found, ∃ x, e.text = x.text ∧ p.Fits kind x ∧ holds x)
    ∧ ∀ x, p.Fits kind x → holds x → ∃ e ∈ found, e.text = x.text
  tested : ∀ x, p.Admissible kind x → Answers False (tested x.byText) fun answer =>
    answer = true ↔ holds x
  fits : ∀ x, p.Admissible kind x → holds x → p.Fits kind x

section Told

variable {p : Program} {kind first second : Kind} {opened : Asked (List Entity)}
  {tested tested' : Entity → Asked Bool} {holds : Entity → Prop} {m : Modes}
  {rel left right told stands : Entity → Entity → Prop} {v w : Entity}

theorem Told.congr (all : Told p kind opened tested holds)
    (same : ∀ x, p.Admissible kind x → tested' x.byText = tested x.byText)
    : Told p kind opened tested' holds where
  opened := all.opened
  tested x admissible := same x admissible ▸ all.tested x admissible
  fits := all.fits

/-- What is found for an open synonym and what is told of a value that may be tested. -/
theorem Told.exists_text_iff (all : Told p kind opened tested holds) (named : p.Named)
    {found : List Entity} (answer : opened = .ok found) {x : Entity} (admissible : p.Admissible kind x)
    : (∃ e ∈ found, e.text = x.text) ↔ holds x := by
  have both := all.opened
  rw [answer] at both
  obtain ⟨sound, complete⟩ := both
  constructor
  · intro ⟨e, member, same⟩
    obtain ⟨x', same', fits, holds⟩ := sound e member
    have equal : x = x' :=
      admissible.eq_of_text (.inl fits) named (same.symm.trans same')
    exact equal ▸ holds
  · exact fun holds => complete x (all.fits x admissible holds) holds

/-- A fixed argument is read as the thing that it means. -/
structure ReadAs (stands : Entity → Entity → Prop) (v : Entity) (means : Entity → Prop) : Prop where
  some : ∃ y, Means stands v y
  iff : ∀ property : Entity → Prop,
    (∃ y, Means stands v y ∧ property y) ↔ ∃ y, means y ∧ property y

theorem ReadAs.anything {stands : Entity → Entity → Prop}
    : ReadAs stands anything fun _ => True where
  some := ⟨.missing, .inl rfl⟩
  iff property := by simp [exists_means_anything]

theorem ReadAs.of_unique {y : Entity} (standsFor : stands v y)
    (fixed : v ≠ Relation.anything) (unique : ∀ y', stands v y' → y' = y)
    : ReadAs stands v (· = y) where
  some := ⟨y, .inr standsFor⟩
  iff property := by simp [exists_means_of_unique standsFor fixed unique]

/-- What is told of the things that are related to a fixed argument. -/
theorem ReadAs.tells {means : Entity → Prop}
    (reads : ReadAs stands v means) (texts : ∀ e x, told e x → e.text = x.text)
    (open_ : Answers False opened fun found =>
      Tells told found fun x => p.Fits kind x ∧ ∃ y, Means stands v y ∧ rel x y)
    (test : ∀ x, p.Admissible kind x → Answers False (tested x.byText) fun answer =>
      answer = true ↔ ∃ y, Means stands v y ∧ rel x y)
    (fits : ∀ x y, p.Admissible kind x → rel x y → p.Fits kind x)
    : Told p kind opened tested fun x => ∃ y, means y ∧ rel x y where
  opened := by
    refine open_.mono fun found ⟨sound, complete⟩ => ⟨fun e member => ?_, fun x fits holds => ?_⟩
    · obtain ⟨x, isTold, fits, related⟩ := sound e member
      exact ⟨x, texts e x isTold, fits, (reads.iff _).mp related⟩
    · obtain ⟨e, member, isTold⟩ := complete x ⟨fits, (reads.iff _).mpr holds⟩
      exact ⟨e, member, texts e x isTold⟩
  tested x admissible :=
    (test x admissible).mono fun answer exact_ => exact_.trans (reads.iff _)
  fits x admissible := fun ⟨y, _, holds⟩ => fits x y admissible holds

section Agree

variable (agree : m.Agree p rel left right told first second)
  (texts : ∀ e x, told e x → e.text = x.text) {means : Entity → Prop}
include agree texts

theorem Relation.Modes.Agree.told_first (stands : ∀ x, p.Admissible first x → left x.byText x)
    (fits : ∀ x y, p.Admissible first x → rel x y → p.Fits first x) (reads : ReadAs right w means)
    : Told p first (m.openFixed first.label w) (m.memberFixed · w) fun x =>
        ∃ y, means y ∧ rel x y :=
  reads.tells texts (agree.openFixed reads.some)
    (fun x admissible => agree.memberFixed (stands x admissible) reads.some) fits

theorem Relation.Modes.Agree.told_second (stands : ∀ y, p.Admissible second y → right y.byText y)
    (fits : ∀ y x, p.Admissible second y → rel x y → p.Fits second y) (reads : ReadAs left v means)
    : Told p second (m.fixedOpen v second.label) (m.fixedMember v ·) fun y =>
        ∃ x, means x ∧ rel x y :=
  reads.tells texts (agree.fixedOpen reads.some)
    (fun y admissible => agree.fixedMember reads.some (stands y admissible)) fits

end Agree

end Told

namespace Query

/-- What a fixed argument means. -/
def Reference.Means : Reference → Entity → Prop
  | .synonym _ => fun _ => False
  | .anything => fun _ => True
  | .line digits => fun y => ∃ n : Nat, readInt? digits = some (n : Int) ∧ y = .line n
  | .name a => (· = .name a)

section References

variable {p : Program} {knowledge : KnowledgeBase} {q : Query} {a : Reference} {scope : Scope}
  {digits : String}

theorem Reference.means_line {n : Nat} (reads : readInt? digits = some (n : Int))
    : (Reference.line digits).Means = (· = .line n) := by
  funext y
  simp only [Reference.Means, reads, Option.some.injEq, Int.natCast_inj, exists_eq_left']

/-- A number of the program is read without a sign. -/
theorem Scope.HasLine.reads (has : scope.HasLine digits)
    : readInt? digits = some (Nat.ofDigitChars 10 digits.toList 0 : Int)
      ∧ (Nat.ofDigitChars 10 digits.toList 0 : Int) ≤ scope.lastLine := by
  obtain ⟨numeral, n, reads, small⟩ := has
  have found : readInt? digits = some n := by simp [readInt?, reads, Except.toOption]
  obtain ⟨c, cs, heading, areDigits⟩ := isNumeral_iff.mp numeral
  have value := readInt?_of_isDigit (by simp [heading]) fun d member =>
    areDigits d (heading ▸ member)
  rw [found] at value
  split at value
  · cases value
  · cases value
    exact ⟨found, small⟩

theorem Scope.HasLine.exists_nat (has : scope.HasLine digits)
    : ∃ n : Nat, readInt? digits = some (n : Int) ∧ (n : Int) ≤ scope.lastLine :=
  ⟨_, has.reads⟩

/-- A number without leading zeros is read as it is written. -/
theorem Scope.HasLine.readInt?_bare {n : Nat} (has : scope.HasLine (showInt n))
    : readInt? (showInt n) = some (n : Int) ∧ (n : Int) ≤ scope.lastLine := by
  have reads := has.reads
  rwa [ofDigitChars_showInt] at reads

theorem readAs_line (fits : q.FitsLine scope a) (fixed : a.IsFixed)
    : ReadAs ReadsLine (.name a.text) a.Means := by
  cases a with
  | synonym x => exact fixed.elim
  | anything => exact .anything
  | name x => exact fits.elim
  | line digits =>
    obtain ⟨n, reads, -⟩ := Scope.HasLine.exists_nat fits
    have number : Relation.numberOf (.name digits) = .ok (n : Int) := by
      simp [Relation.numberOf, Relation.number, reads]
    rw [Reference.means_line reads]
    refine .of_unique ⟨n, number, rfl⟩ (ne_anything_of_numberOf number) ?_
    rintro _ ⟨n', number', rfl⟩
    cases number.symm.trans number'
    rfl

variable (describes : knowledge.Describes p) (named : p.Named)
include describes named

theorem readAs_procedure (fits : q.FitsProcedure knowledge.scope a) (fixed : a.IsFixed)
    : ReadAs StandsForName (.name a.text) a.Means := by
  cases a with
  | synonym x => exact fixed.elim
  | anything => exact .anything
  | line digits => exact fits.elim
  | name x =>
    have known := isName_ne_anything (named.isName (describes.mem_procedureNames.mp fits.2))
    exact .of_unique ⟨rfl, known, x, rfl⟩ known fun y stands => stands.1.symm

theorem readAs_variable (fits : q.FitsVariable knowledge.scope a) (fixed : a.IsFixed)
    : ReadAs StandsForVariable (.name a.text) a.Means := by
  cases a with
  | synonym x => exact fixed.elim
  | anything => exact .anything
  | line digits => exact fits.elim
  | name x =>
    have isName := named.isName (describes.mem_variableNames.mp fits.2)
    exact .of_unique ⟨rfl, x, rfl, isName⟩ (isName_ne_anything isName) fun y stands =>
      stands.1.symm

theorem readAs_place
    (fits : q.FitsLine knowledge.scope a ∨ q.FitsProcedure knowledge.scope a) (fixed : a.IsFixed)
    (bare : ∀ digits, a = .line digits → IsBare digits)
    : ReadAs StandsForPlace (.name a.text) a.Means := by
  have unique {v y : Entity} (stands : StandsForPlace v y)
      : ReadAs StandsForPlace v (· = y) :=
    .of_unique stands stands.ne_anything fun _ stands' =>
      stands'.2.eq_of_text stands.2 (stands'.1.text.symm.trans stands.1.text)
  cases a with
  | synonym x => exact fixed.elim
  | anything => exact .anything
  | name x =>
    obtain ⟨-, member⟩ := fits.resolve_left id
    have isName := named.isName (describes.mem_procedureNames.mp member)
    exact unique ⟨.inl rfl, isName⟩
  | line digits =>
    obtain ⟨n, rfl⟩ := bare digits rfl
    have has : knowledge.scope.HasLine (showInt n) := fits.resolve_right id
    rw [Reference.means_line has.readInt?_bare.1]
    exact unique ⟨.inr rfl, n, rfl⟩

end References

/-- What is found for the synonym of a condition as long as nothing is known of it. -/
def RelationCondition.opened (m : Modes) (type : String) (c : RelationCondition)
    : Asked (List Entity) :=
  match c.first with
  | .synonym _ => m.openFixed type (.name c.second.text)
  | first => m.fixedOpen (.name first.text) type

/-- Whether a value that the synonym of a condition has been restricted to passes. -/
def RelationCondition.tested (m : Modes) (c : RelationCondition) (v : Entity) : Asked Bool :=
  match c.first with
  | .synonym _ => m.memberFixed v (.name c.second.text)
  | first => m.fixedMember (.name first.text) v

/-- What a condition says of its synonym where it stands for a relation. -/
def RelationCondition.Says (rel : Entity → Entity → Prop) (c : RelationCondition) (e : Entity)
    : Prop :=
  match c.first with
  | .synonym _ => ∃ y, c.second.Means y ∧ rel e y
  | first => ∃ y, first.Means y ∧ rel y e

section Kinds

variable {p : Program} {scope : Scope} {q : Query} {x : String} {kind : Kind} {e y : Entity}

theorem numbered_of_fitsLine (fits : q.FitsLine scope (.synonym x))
    (kindOf : q.kindOf? x = some kind)
    : kind ≠ .procedure ∧ kind ≠ .variable := by
  obtain ⟨type, typed, numbered⟩ := fits
  rw [kindOf?, typed, Option.bind_some] at kindOf
  cases type <;> cases kindOf <;> simp [EntityType.isNumbered] at numbered ⊢

theorem kind_of_typeOf? {type : EntityType} (typed : q.typeOf? x = some type)
    (kindOf : q.kindOf? x = some kind)
    : type.kind? = some kind := by
  rwa [kindOf?, typed] at kindOf

/-- Procedures and variables are tested by their names. -/
theorem admissible_name (named : p.Named) (isNamed : kind = .procedure ∨ kind = .variable)
    (admissible : p.Admissible kind e)
    : p.Fits kind e ∧ ∃ a, e = .name a ∧ isName a = true := by
  have fits : p.Fits kind e := by
    rcases admissible with fits | ⟨rfl, -⟩
    · exact fits
    · rcases isNamed with other | other <;> cases other
  obtain ⟨a, rfl⟩ := fits.exists_name isNamed
  exact ⟨fits, a, rfl, named.isName fits⟩

theorem admissible_procedure (named : p.Named) (admissible : p.Admissible .procedure e)
    : p.Fits .procedure e ∧ StandsForName e.byText e := by
  obtain ⟨fits, a, rfl, isName⟩ := admissible_name named (.inl rfl) admissible
  exact ⟨fits, rfl, isName_ne_anything isName, a, rfl⟩

theorem admissible_variable (named : p.Named) (admissible : p.Admissible .variable e)
    : p.Fits .variable e ∧ StandsForVariable e.byText e := by
  obtain ⟨fits, a, rfl, isName⟩ := admissible_name named (.inr rfl) admissible
  exact ⟨fits, rfl, a, rfl, isName⟩

/-- A place that touches something exists. -/
theorem fits_of_touchedFrom {own : Stmt → String → Prop} (admissible : p.Admissible kind e)
    (does : p.TouchedFrom own e y)
    : p.Fits kind e := by
  rcases admissible with fits | ⟨rfl, n, -, rfl⟩
  · exact fits
  · match y, does with
    | .name _, ⟨line, s, listed, _, same⟩ => exact ⟨line, s, listed, rfl, same⟩

/-- A fixed argument other than `_` is not taken for it. -/
theorem name_text_ne_anything {a : Reference} (fixed : a.IsFixed) (differs : a ≠ .anything)
    (fits : q.FitsLine scope a ∨ q.FitsProcedure scope a)
    : Entity.name a.text ≠ anything := by
  intro same
  obtain text : a.text = "_" := by simpa [anything] using same
  cases a with
  | synonym x => exact fixed
  | anything => exact differs rfl
  | line digits =>
    obtain ⟨numeral, -⟩ := fits.resolve_right id
    rw [show digits = "_" from text] at numeral
    exact absurd numeral (by decide +kernel)
  | name x =>
    obtain ⟨quotable, -⟩ := fits.resolve_left id
    rw [show x = "_" from text] at quotable
    exact absurd quotable (by decide +kernel)

end Kinds

section Families

variable {p : Program} {knowledge : KnowledgeBase} {q : Query} {x : String} {kind : Kind}
  {m : Modes} {c : RelationCondition} (concerns : (Restriction.relation c).Concerns x)
include concerns

/-- The synonym of a condition stands on one side. -/
theorem told_sides {rel : Entity → Entity → Prop}
    (onLeft : c.first = .synonym x → c.second.IsFixed →
      Told p kind (m.openFixed kind.label (.name c.second.text))
        (m.memberFixed · (.name c.second.text)) fun e => ∃ y, c.second.Means y ∧ rel e y)
    (onRight : c.first.IsFixed → c.second = .synonym x →
      Told p kind (m.fixedOpen (.name c.first.text) kind.label)
        (m.fixedMember (.name c.first.text)) fun e => ∃ y, c.first.Means y ∧ rel y e)
    : Told p kind (c.opened m kind.label) (c.tested m) (c.Says rel) := by
  obtain ⟨relation, a, b⟩ := c
  rcases concerns with ⟨isFirst, fixed⟩ | ⟨fixed, isSecond⟩
  · cases isFirst
    exact onLeft rfl fixed
  · have told := onRight fixed isSecond
    cases a with
    | synonym => exact fixed.elim
    | anything => exact told
    | line => exact told
    | name => exact told

variable (setting : Setting p knowledge) (kindOf : q.kindOf? x = some kind)
include setting kindOf

theorem told_lines {rel : Nat → Nat → Prop} (relates : p.Relates rel)
    (fits : q.FitsLine knowledge.scope c.first) (fits' : q.FitsLine knowledge.scope c.second)
    (agree : m.Agree p (onLines rel) ReadsLine ReadsLine (· = ·) kind .statement)
    (agree' : m.Agree p (onLines rel) ReadsLine ReadsLine (· = ·) .statement kind)
    : Told p kind (c.opened m kind.label) (c.tested m) (c.Says (onLines rel)) := by
  refine told_sides concerns (fun first fixed => ?_) fun fixed second => ?_
  · have numbered := numbered_of_fitsLine (first ▸ fits) kindOf
    exact agree.told_first (fun _ _ same => congrArg _ same)
      (fun _ admissible => admissible.readsLine setting.short numbered)
      (fun _ _ admissible holds => admissible.fits (relates.statements holds).1)
      (readAs_line fits' fixed)
  · have numbered := numbered_of_fitsLine (second ▸ fits') kindOf
    exact agree'.told_second (fun _ _ same => congrArg _ same)
      (fun _ admissible => admissible.readsLine setting.short numbered)
      (fun _ _ admissible holds => admissible.fits (relates.statements holds).2)
      (readAs_line fits fixed)

theorem told_calls {rel : String → String → Prop}
    (fits : q.FitsProcedure knowledge.scope c.first)
    (fits' : q.FitsProcedure knowledge.scope c.second)
    (agree : m.Agree p (onNames rel) StandsForName StandsForName (· = ·) .procedure .procedure)
    : Told p kind (c.opened m kind.label) (c.tested m) (c.Says (onNames rel)) := by
  have describes := setting.describes
  have named := setting.named
  refine told_sides concerns (fun first fixed => ?_) fun fixed second => ?_
  · cases kind_of_typeOf? (first ▸ fits) kindOf
    exact agree.told_first (fun _ _ same => congrArg _ same)
      (fun _ admissible => (admissible_procedure named admissible).2)
      (fun _ _ admissible _ => (admissible_procedure named admissible).1)
      (readAs_procedure describes named fits' fixed)
  · cases kind_of_typeOf? (second ▸ fits') kindOf
    exact agree.told_second (fun _ _ same => congrArg _ same)
      (fun _ admissible => (admissible_procedure named admissible).2)
      (fun _ _ admissible _ => (admissible_procedure named admissible).1)
      (readAs_procedure describes named fits fixed)

/-- Places stand on the left and variables on the right. A variable is tested as a fixed one would be,
unless the place is `_`. -/
theorem told_effects {own : Stmt → String → Prop} {effects : Grid Int}
    (fits : q.FitsLine knowledge.scope c.first ∨ q.FitsProcedure knowledge.scope c.first)
    (fits' : q.FitsVariable knowledge.scope c.second) (known : c.first ≠ .anything)
    (bare : ∀ digits, c.first = .line digits → IsBare digits)
    (agree : ∀ {k : Kind}, k ≠ .variable →
      { effectModes knowledge effects with
        fixedMember := (effectModes knowledge effects).fixedFixed }.Agree p (p.TouchedFrom own)
        StandsForPlace StandsForVariable Stands k .variable)
    : Told p kind (c.opened (effectModes knowledge effects) kind.label)
        (c.tested (effectModes knowledge effects)) (c.Says (p.TouchedFrom own)) := by
  have describes := setting.describes
  have named := setting.named
  refine told_sides concerns (fun first fixed => ?_) fun fixed second => ?_
  · have place : kind ≠ .variable := by
      rw [first] at fits
      rcases fits with fits | fits
      · exact (numbered_of_fitsLine fits kindOf).2
      · cases kind_of_typeOf? fits kindOf
        decide
    have told := (agree place).told_first (fun _ _ stands => stands.text)
      (fun _ admissible => admissible.standsForPlace named)
      (fun _ _ admissible does => fits_of_touchedFrom admissible does)
      (readAs_variable describes named fits' fixed)
    exact told
  · cases kind_of_typeOf? (second ▸ fits') kindOf
    have told := (agree (k := .statement) nofun).told_second (fun _ _ stands => stands.text)
      (fun _ admissible => (admissible_variable named admissible).2)
      (fun _ _ admissible _ => (admissible_variable named admissible).1)
      (readAs_place describes named fits fixed bare)
    refine told.congr fun e admissible => ?_
    have left := name_text_ne_anything fixed known fits
    have right := (admissible_variable named admissible).2.ne_anything
    simp only [effectModes, if_neg left, if_neg right]

theorem RelationCondition.told (steady : c.Steady (some kind))
    (accepted : c.Accepted knowledge.scope q) (asked : c.relation.modes? knowledge = some m)
    : Told p kind (c.opened m kind.label) (c.tested m) (c.Says (p.Holds c.relation)) := by
  have describes := setting.describes
  have follows := describes.follows_tabulates setting.short
  have parent := describes.parent_tabulates setting.short setting.filled
  have next := describes.next_tabulates setting.short setting.filled
  obtain ⟨relation, a, b⟩ := c
  cases relation <;> cases asked
  case follows =>
    have told := told_lines concerns setting kindOf Program.relates_follows accepted.1 accepted.2.1
      (Follows.lookingBack_agree describes follows) (Follows.lookingBack_agree describes follows)
    refine told.congr fun e _ => ?_
    have known := steady.first (.inl rfl)
    cases a with
    | synonym => rfl
    | anything => exact absurd rfl known
    | line digits =>
      have differs := name_text_ne_anything (a := .line digits) trivial known (.inl accepted.1)
      exact (if_neg differs).symm
    | name => exact accepted.1.elim
  case followsStar =>
    exact told_lines concerns setting kindOf Program.relates_follows.transGen accepted.1 accepted.2.1
      (FollowsStar.modes_agree describes follows) (FollowsStar.modes_agree describes follows)
  case parent =>
    exact told_lines concerns setting kindOf Program.relates_parent accepted.1 accepted.2.1
      (Parent.modes_agree describes parent) (Parent.modes_agree describes parent)
  case parentStar =>
    exact told_lines concerns setting kindOf Program.relates_parent.transGen accepted.1 accepted.2.1
      (ParentStar.modes_agree describes parent) (ParentStar.modes_agree describes parent)
  case next =>
    obtain ⟨_, ⟨⟩, isStatement⟩ := steady.typed
    obtain rfl := isStatement (.inl rfl)
    exact told_lines concerns setting kindOf Program.relates_step accepted.1 accepted.2
      (Next.modes_agree next) (Next.modes_agree next)
  case nextStar =>
    obtain ⟨_, ⟨⟩, isStatement⟩ := steady.typed
    obtain rfl := isStatement (.inr rfl)
    exact told_lines concerns setting kindOf Program.relates_step.transGen accepted.1 accepted.2
      (NextStar.modes_agree next) (NextStar.modes_agree next)
  case calls =>
    exact told_calls concerns setting kindOf accepted.1 accepted.2.1
      (Calls.modes_agree describes setting.declared)
  case callsStar =>
    exact told_calls concerns setting kindOf accepted.1 accepted.2.1 setting.callsStar_agree
  case modifies =>
    exact told_effects concerns setting kindOf accepted.1 accepted.2
      (steady.first (.inr (.inl rfl))) (steady.bare (.inl rfl)) setting.modifies_agree
  case uses =>
    exact told_effects concerns setting kindOf accepted.1 accepted.2
      (steady.first (.inr (.inr rfl))) (steady.bare (.inr rfl)) setting.uses_agree

end Families

end Query

end ProgramQuery

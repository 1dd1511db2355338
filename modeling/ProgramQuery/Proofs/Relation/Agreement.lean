import ProgramQuery.Proofs.Relation.NestingModes

/-! All ways of asking Parent and the two starred relations of statements agree. Whatever is a member, a
type or fixed, the answer is the truth value of one relation or one of its projections.
-/

open Relation (TransGen)

namespace ProgramQuery

open Text ProgramQuery.Relation

/-- What a fixed argument means: anything at all, or what it stands for. -/
def Means (stands : Entity → Entity → Prop) (v x : Entity) : Prop :=
  v = anything ∨ stands v x

/-- A list tells which things have a property, where `told` says how it writes a thing. -/
def Tells (told : Entity → Entity → Prop) (found : List Entity) (property : Entity → Prop) : Prop :=
  (∀ e ∈ found, ∃ x, told e x ∧ property x) ∧ ∀ x, property x → ∃ e ∈ found, told e x

/-- Each way of asking for synonyms of two kinds is answered, and by one and the same relation. A member
or a fixed argument other than `_` stands for a thing, on the left as `left` and on the right as `right`
says.
-/
structure Relation.Modes.Agree (m : Modes) (p : Program) (rel : Entity → Entity → Prop)
    (left right told : Entity → Entity → Prop) (first second : Kind)
    : Prop where
  memberMember {v w x y : Entity} (standsLeft : left v x) (standsRight : right w y)
    : Answers False (m.memberMember v w) fun holds => holds = true ↔ rel x y
  memberOpen {v x : Entity} (standsLeft : left v x)
    : Answers False (m.memberOpen v second.label) fun found =>
        Tells told found fun y => p.Fits second y ∧ rel x y
  memberFixed {v w x : Entity} (standsLeft : left v x) (meaning : ∃ y, Means right w y)
    : Answers False (m.memberFixed v w) fun holds =>
        holds = true ↔ ∃ y, Means right w y ∧ rel x y
  openMember {w y : Entity} (standsRight : right w y)
    : Answers False (m.openMember first.label w) fun found =>
        Tells told (found.filter (· ≠ .missing)) fun x => p.Fits first x ∧ rel x y
  openOpen
    : Answers False (m.openOpen first.label second.label) fun found =>
        Tells told found.1 (fun x => p.Fits first x ∧ ∃ y, p.Fits second y ∧ rel x y)
        ∧ Tells told found.2 fun y => p.Fits second y ∧ ∃ x, p.Fits first x ∧ rel x y
  openFixed {w : Entity} (meaning : ∃ y, Means right w y)
    : Answers False (m.openFixed first.label w) fun found =>
        Tells told found fun x => p.Fits first x ∧ ∃ y, Means right w y ∧ rel x y
  fixedMember {v w y : Entity} (meaning : ∃ x, Means left v x) (standsRight : right w y)
    : Answers False (m.fixedMember v w) fun holds =>
        holds = true ↔ ∃ x, Means left v x ∧ rel x y
  fixedOpen {v : Entity} (meaning : ∃ x, Means left v x)
    : Answers False (m.fixedOpen v second.label) fun found =>
        Tells told found fun y => p.Fits second y ∧ ∃ x, Means left v x ∧ rel x y
  fixedFixed {v w : Entity} (meaning : ∃ x, Means left v x) (meaning' : ∃ y, Means right w y)
    : Answers False (m.fixedFixed v w) fun holds =>
        holds = true ↔ ∃ x y, Means left v x ∧ Means right w y ∧ rel x y

variable {told : Entity → Entity → Prop} {property : Entity → Prop}

theorem tells_of_mem (itself : ∀ e, told e e)
    {found : List Entity} (all : ∀ e, e ∈ found ↔ property e)
    : Tells told found property :=
  ⟨fun e member => ⟨e, itself e, (all e).mp member⟩,
    fun x holds => ⟨x, (all x).mpr holds, itself x⟩⟩

theorem Tells.congr {found : List Entity}
    {other : Entity → Prop} (tells : Tells told found property)
    (same : ∀ x, property x ↔ other x)
    : Tells told found other :=
  funext (fun x => propext (same x)) ▸ tells

variable {stands : Entity → Entity → Prop}

theorem exists_means_anything : (∃ y, Means stands anything y ∧ property y) ↔ ∃ y, property y := by
  simp [Means]

/-- What stands for one thing only means just that thing. -/
theorem exists_means_of_unique {w y : Entity} (standsFor : stands w y) (fixed : w ≠ anything)
    (unique : ∀ y', stands w y' → y' = y)
    : (∃ y', Means stands w y' ∧ property y') ↔ property y := by
  constructor
  · intro ⟨y', means, holds⟩
    rcases means with same | standsFor'
    · exact absurd same fixed
    · exact unique y' standsFor' ▸ holds
  · exact fun holds => ⟨y, .inr standsFor, holds⟩

/-- A fixed argument other than `_` stands for one thing only. -/
structure Distinguishes (stands : Entity → Entity → Prop) : Prop where
  fixed {v x : Entity} (standsFor : stands v x) : v ≠ anything
  unique {v x x' : Entity} (standsFor : stands v x) (standsFor' : stands v x') : x' = x

theorem Distinguishes.exists_means (distinguishes : Distinguishes stands) {v x : Entity}
    (standsFor : stands v x)
    : (∃ x', Means stands v x' ∧ property x') ↔ property x :=
  exists_means_of_unique standsFor (distinguishes.fixed standsFor) fun _ => distinguishes.unique standsFor

/-- What a relation answers where nothing is fixed, where `_` is fixed, and to open arguments on the left
of a fixed thing. -/
structure Relation.Modes.Reports (m : Modes) (p : Program) (rel : Entity → Entity → Prop)
    (left right told : Entity → Entity → Prop) (first second : Kind)
    : Prop where
  member {v w x y : Entity} (onLeft : left v x) (onRight : right w y)
    : Answers False (m.memberMember v w) fun holds => holds = true ↔ rel x y
  after {v x : Entity} (onLeft : left v x)
    : Answers False (m.memberOpen v second.label) fun found =>
        Tells told found fun y => p.Fits second y ∧ rel x y
  before {w y : Entity} (onRight : right w y)
    : Answers False (m.openMember first.label w) fun found =>
        Tells told (found.filter (· ≠ .missing)) fun x => p.Fits first x ∧ rel x y
  beforeFixed {w y : Entity} (onRight : right w y)
    : Answers False (m.openFixed first.label w) fun found =>
        Tells told found fun x => p.Fits first x ∧ rel x y
  sides
    : Answers False (m.openOpen first.label second.label) fun found =>
        Tells told found.1 (fun x => p.Fits first x ∧ ∃ y, p.Fits second y ∧ rel x y)
        ∧ Tells told found.2 fun y => p.Fits second y ∧ ∃ x, p.Fits first x ∧ rel x y
  followed {v x : Entity} (onLeft : left v x)
    : Answers False (m.memberFixed v anything) fun holds => holds = true ↔ ∃ y, rel x y
  preceded {w y : Entity} (onRight : right w y)
    : Answers False (m.fixedMember anything w) fun holds => holds = true ↔ ∃ x, rel x y
  lefts
    : Answers False (m.openFixed first.label anything) fun found =>
        Tells told found fun x => p.Fits first x ∧ ∃ y, rel x y
  rights
    : Answers False (m.fixedOpen anything second.label) fun found =>
        Tells told found fun y => p.Fits second y ∧ ∃ x, rel x y
  some
    : Answers False (m.fixedFixed anything anything) fun holds => holds = true ↔ ∃ x y, rel x y
  fixedLeft {v : Entity} (fixed : v ≠ anything)
    : m.fixedFixed v anything = m.memberFixed v anything
  fixedRight {w : Entity} (fixed : w ≠ anything)
    : m.fixedFixed anything w = m.fixedMember anything w

/-- The nine ways of asking agree once the answers with and without `_` are right. -/
theorem Relation.Modes.Reports.agree {m : Modes} {p : Program}
    {rel left right : Entity → Entity → Prop} {first second : Kind}
    {fixedMember : Entity → Entity → Asked Bool}
    (reports : m.Reports p rel left right told first second)
    (plain : { m with fixedMember := fixedMember }.Plain)
    (both : ∀ {v w}, v ≠ anything → w ≠ anything → m.fixedMember v w = m.memberMember v w)
    (lefts : Distinguishes left) (rights : Distinguishes right)
    : m.Agree p rel left right told first second := by
  constructor
  case memberMember => exact reports.member
  case memberOpen => exact reports.after
  case openMember => exact reports.before
  case openOpen => exact reports.sides
  case memberFixed =>
    rintro v w x onLeft ⟨y, rfl | onRight⟩
    · simp only [exists_means_anything]
      exact reports.followed onLeft
    · simp only [rights.exists_means onRight]
      exact plain.memberFixed (rights.fixed onRight) ▸ reports.member onLeft onRight
  case openFixed =>
    rintro w ⟨y, rfl | onRight⟩
    · simp only [exists_means_anything]
      exact reports.lefts
    · simp only [rights.exists_means onRight]
      exact reports.beforeFixed onRight
  case fixedMember =>
    rintro v w y ⟨x, rfl | onLeft⟩ onRight
    · simp only [exists_means_anything]
      exact reports.preceded onRight
    · rw [both (lefts.fixed onLeft) (rights.fixed onRight)]
      simp only [lefts.exists_means onLeft]
      exact reports.member onLeft onRight
  case fixedOpen =>
    rintro v ⟨x, rfl | onLeft⟩
    · simp only [exists_means_anything]
      exact reports.rights
    · simp only [lefts.exists_means onLeft]
      exact plain.fixedOpen (lefts.fixed onLeft) _ ▸ reports.after onLeft
  case fixedFixed =>
    rintro v w ⟨x, rfl | onLeft⟩ ⟨y, rfl | onRight⟩
    all_goals simp only [exists_and_left]
    · simp only [exists_means_anything]
      exact reports.some
    · rw [reports.fixedRight (rights.fixed onRight)]
      simp only [exists_means_anything, rights.exists_means onRight]
      exact reports.preceded onRight
    · rw [reports.fixedLeft (lefts.fixed onLeft)]
      simp only [exists_means_anything, lefts.exists_means onLeft]
      exact reports.followed onLeft
    · simp only [lefts.exists_means onLeft, rights.exists_means onRight]
      exact plain.fixedFixed (lefts.fixed onLeft) (rights.fixed onRight) ▸ reports.member onLeft onRight

/-- An argument that is read as a statement number. -/
def ReadsLine (v x : Entity) : Prop :=
  ∃ a : Nat, Relation.numberOf v = .ok (a : Int) ∧ x = .line a

/-- What a relation between statements is to answer where `_` stands on one side or on both. -/
structure Relation.Modes.AnswersAnything (m : Modes) (p : Program) (rel : Nat → Nat → Prop)
    (first second : Kind)
    : Prop where
  followed {v : Entity} {a : Nat} (reads : Relation.numberOf v = .ok (a : Int))
    : Answers False (m.memberFixed v anything) fun holds => holds = true ↔ ∃ b, rel a b
  preceded {w : Entity} {b : Nat} (reads : Relation.numberOf w = .ok (b : Int))
    : Answers False (m.fixedMember anything w) fun holds => holds = true ↔ ∃ a, rel a b
  lefts
    : Answers False (m.openFixed first.label anything) fun found =>
        ∀ x, x ∈ found ↔ ∃ a : Nat, (∃ b, rel a b) ∧ p.Fits first (.line a) ∧ x = .line a
  rights
    : Answers False (m.fixedOpen anything second.label) fun found =>
        ∀ y, y ∈ found ↔ ∃ b : Nat, (∃ a, rel a b) ∧ p.Fits second (.line b) ∧ y = .line b
  some
    : Answers False (m.fixedFixed anything anything) fun holds => holds = true ↔ ∃ a b, rel a b
  fixedLeft {v : Entity} (fixed : v ≠ anything)
    : m.fixedFixed v anything = m.memberFixed v anything
  fixedRight {w : Entity} (fixed : w ≠ anything)
    : m.fixedFixed anything w = m.fixedMember anything w

section Lines

variable {p : Program} {rel : Nat → Nat → Prop} {first second : Kind} {m : Modes} {v w x y : Entity}
  {property : Entity → Prop}

theorem ReadsLine.numbered {reason : Prop} (reads : ReadsLine v x) : Numbered reason v x := by
  obtain ⟨a, read, rfl⟩ := reads
  rw [Numbered, read]
  exact ⟨a, rfl, rfl⟩

theorem Answers.readOff {β : Type} {reason : Prop} {a : Nat} {f : Int → Asked β} {good : β → Prop}
    (reads : Relation.numberOf v = .ok (a : Int)) (answers : Answers reason (f a) good)
    : Answers reason (Relation.numberOf v >>= f) good := by
  rw [reads]
  exact answers

theorem ne_anything_of_numberOf {n : Int} (reads : Relation.numberOf v = .ok n) : v ≠ anything := by
  intro same
  have unread : Relation.numberOf anything = .error (.notANumber "_") := by decide +kernel
  rw [same, unread] at reads
  cases reads

/-- A number that is related to some other is one of a statement. -/
theorem onLines_line_left {a : Nat} : (∃ y, onLines rel (.line a) y) ↔ ∃ b, rel a b := by
  constructor
  · intro ⟨y, holds⟩
    obtain ⟨a', b, -, -, rfl⟩ := holds.lines
    exact ⟨b, onLines_line.mp holds⟩
  · exact fun ⟨b, holds⟩ => ⟨.line b, onLines_line.mpr holds⟩

theorem onLines_line_right {b : Nat} : (∃ x, onLines rel x (.line b)) ↔ ∃ a, rel a b := by
  constructor
  · intro ⟨x, holds⟩
    obtain ⟨a, b', -, rfl, -⟩ := holds.lines
    exact ⟨a, onLines_line.mp holds⟩
  · exact fun ⟨a, holds⟩ => ⟨.line a, onLines_line.mpr holds⟩

theorem ReadsLine.distinguishes : Distinguishes ReadsLine where
  fixed reads := by
    obtain ⟨a, reads, -⟩ := reads
    exact ne_anything_of_numberOf reads
  unique reads reads' := by
    obtain ⟨a, reads, rfl⟩ := reads
    obtain ⟨a', reads', rfl⟩ := reads'
    cases reads.symm.trans reads'
    rfl

theorem tells_eq {found : List Entity}
    (all : ∀ e, e ∈ found ↔ property e)
    : Tells (· = ·) found property :=
  tells_of_mem (fun _ => rfl) all

theorem Relation.Modes.AnswersLines.agree (answers : m.AnswersLines p rel first second False)
    (anythings : m.AnswersAnything p rel first second) (plain : m.Plain)
    : m.Agree p (onLines rel) ReadsLine ReadsLine (· = ·) first second := by
  refine Reports.agree ?_ plain (fun fixed _ => plain.fixedMember fixed) ReadsLine.distinguishes
    ReadsLine.distinguishes
  constructor
  case member => exact fun onLeft onRight => answers.member onLeft.numbered onRight.numbered
  case after => exact fun onLeft => (answers.after onLeft.numbered).mono fun _ => tells_eq
  case before => exact fun onRight => (answers.before onRight.numbered).mono fun _ => tells_eq
  case beforeFixed =>
    intro w y onRight
    have fixed := ReadsLine.distinguishes.fixed onRight
    exact (answers.beforeFixed onRight.numbered fixed).mono fun _ => tells_eq
  case sides => exact answers.sides.mono fun found all => ⟨tells_eq all.1, tells_eq all.2⟩
  case followed =>
    rintro v _ ⟨a, reads, rfl⟩
    simp only [onLines_line_left]
    exact anythings.followed reads
  case preceded =>
    rintro w _ ⟨b, reads, rfl⟩
    simp only [onLines_line_right]
    exact anythings.preceded reads
  case lefts =>
    refine anythings.lefts.mono fun found all => tells_eq fun x => (all x).trans ?_
    constructor
    · rintro ⟨a, ⟨b, holds⟩, fits, rfl⟩
      exact ⟨fits, _, onLines_line.mpr holds⟩
    · rintro ⟨fits, y, holds⟩
      obtain ⟨a, b, related, rfl, -⟩ := holds.lines
      exact ⟨a, ⟨b, related⟩, fits, rfl⟩
  case rights =>
    refine anythings.rights.mono fun found all => tells_eq fun y => (all y).trans ?_
    constructor
    · rintro ⟨b, ⟨a, holds⟩, fits, rfl⟩
      exact ⟨fits, _, onLines_line.mpr holds⟩
    · rintro ⟨fits, x, holds⟩
      obtain ⟨a, b, related, -, rfl⟩ := holds.lines
      exact ⟨b, ⟨a, related⟩, fits, rfl⟩
  case some =>
    refine anythings.some.mono fun holds exact_ => exact_.trans ?_
    constructor
    · rintro ⟨a, b, related⟩
      exact ⟨_, _, onLines_line.mpr related⟩
    · rintro ⟨x, y, related⟩
      obtain ⟨a, b, related, -, -⟩ := related.lines
      exact ⟨a, b, related⟩
  case fixedLeft => exact anythings.fixedLeft
  case fixedRight => exact anythings.fixedRight

end Lines

section Anything

variable {p : Program} {knowledge : KnowledgeBase} {g : Grid Int} {rel : Nat → Nat → Prop}
  {first second : Kind} {m : Modes} (describes : knowledge.Describes p) (relates : p.Relates rel)
  (table : g.Tabulates rel)

include table in
theorem Grid.Tabulates.inhabited_spec
    : Answers False g.inhabited fun holds => holds = true ↔ ∃ a b, rel a b := by
  obtain ⟨rows, same, all⟩ := table.rowNumbers_spec
  obtain ⟨columns, same', all'⟩ := table.columnNumbers_spec
  have answer : g.inhabited = .ok (!rows.isEmpty && !columns.isEmpty) := by
    simp only [Grid.inhabited, same, same']
    cases rows <;> rfl
  rw [answer]
  refine .ok ?_
  rw [Bool.and_eq_true, all.isEmpty, all'.isEmpty]
  exact ⟨And.left, fun ⟨a, b, holds⟩ => ⟨⟨a, b, holds⟩, b, a, holds⟩⟩

/-- A line that was found counts, since statements are numbered from one. -/
theorem found_iff {line : Option Int} {property : Nat → Prop}
    (all : Enumerates line.toList property) (listed : ∀ n, property n → ∃ s, (n, s) ∈ p.listing)
    : found line = true ↔ ∃ n, property n := by
  have members (n : Int) : n ∈ line.toList ↔ ∃ a : Nat, property a ∧ (a : Int) = n := all n
  simp only [Option.mem_toList] at members
  simp only [found, Option.any_eq_true, members, bne_iff_ne]
  constructor
  · exact fun ⟨_, ⟨a, holds, _⟩, _⟩ => ⟨a, holds⟩
  · intro ⟨a, holds⟩
    have bounds := Program.exists_mem_listing_iff.mp (listed a holds)
    exact ⟨a, ⟨a, holds, rfl⟩, by omega⟩

/-- Whatever is on one side of a path is there by its first or last step already. -/
theorem Relation.Modes.AnswersAnything.transGen (answers : m.AnswersAnything p rel first second)
    : m.AnswersAnything p (TransGen rel) first second := by
  constructor
  case followed =>
    intro v a reads
    exact (answers.followed reads).mono fun holds exact_ => by rw [exact_, transGen_left_iff]
  case preceded =>
    intro w b reads
    exact (answers.preceded reads).mono fun holds exact_ => by rw [exact_, transGen_right_iff]
  case lefts =>
    refine answers.lefts.mono fun found all x => ?_
    simp only [all x, transGen_left_iff]
  case rights =>
    refine answers.rights.mono fun found all y => ?_
    simp only [all y, transGen_right_iff]
  case some =>
    refine answers.some.mono fun holds exact_ => ?_
    simp only [exact_, transGen_left_iff]
  case fixedLeft => exact answers.fixedLeft
  case fixedRight => exact answers.fixedRight

include describes relates table in
/-- What is read off the rows and the columns of a table answers the questions with `_`. -/
theorem Relation.Modes.anything_of_table {follows precedes : Int → Bool}
    (followed : ∀ a : Nat, follows a = true ↔ ∃ b, rel a b)
    (preceded : ∀ b : Nat, precedes b = true ↔ ∃ a, rel a b)
    (memberFixed : ∀ v, m.memberFixed v anything = do return follows (← Relation.numberOf v))
    (fixedMember : ∀ w, m.fixedMember anything w = do return precedes (← Relation.numberOf w))
    (openFixed : ∀ type, m.openFixed type anything = do
      return lines (fitting knowledge type (← g.rowNumbers)))
    (fixedOpen : ∀ type, m.fixedOpen anything type = do
      return lines (fitting knowledge type (← g.columnNumbers)))
    (fixedFixed : ∀ v w, m.fixedFixed v w =
      if v = anything then
        if w = anything then g.inhabited else m.fixedMember anything w
      else if w = anything then m.memberFixed v anything
      else m.memberMember v w)
    : m.AnswersAnything p rel first second := by
  constructor
  case followed =>
    intro v a reads
    rw [memberFixed]
    exact .readOff reads (.ok (followed a))
  case preceded =>
    intro w b reads
    rw [fixedMember]
    exact .readOff reads (.ok (preceded b))
  case lefts =>
    obtain ⟨rows, same, all⟩ := table.rowNumbers_spec
    have fit := all.fitting describes (fun a ⟨b, holds⟩ => (relates a b holds).1) first
    rw [openFixed, same]
    exact .ok fun x => by simp only [fit.mem_lines, and_assoc]
  case rights =>
    obtain ⟨columns, same, all⟩ := table.columnNumbers_spec
    have fit := all.fitting describes (fun b ⟨a, holds⟩ => (relates a b holds).2) second
    rw [fixedOpen, same]
    exact .ok fun y => by simp only [fit.mem_lines, and_assoc]
  case some =>
    rw [fixedFixed, if_pos rfl, if_pos rfl]
    exact table.inhabited_spec
  case fixedLeft =>
    intro v fixed
    rw [fixedFixed, if_neg fixed, if_pos rfl]
  case fixedRight =>
    intro w fixed
    rw [fixedFixed, if_pos rfl, if_neg fixed]

end Anything

section Nesting

variable {p : Program} {knowledge : KnowledgeBase} {first second : Kind}
  (describes : knowledge.Describes p)

section Parent

variable (table : knowledge.parent.Tabulates p.Parent)

include table in
theorem hasParent_iff (b : Nat) : found (parentOf? knowledge b) = true ↔ ∃ a, p.Parent a b :=
  found_iff (enumerates_parent table b) fun a holds => (Program.relates_parent a b holds).1

include table in
theorem hasChildren_iff (a : Nat)
    : (!(knowledge.parent.columnsAt a).isEmpty) = true ↔ ∃ b, p.Parent a b :=
  (table.columnsAt_spec a).isEmpty

end Parent

section Follows

variable (table : knowledge.follows.Tabulates p.Follows)
include table

theorem isFollowed_iff (a : Nat)
    : found (knowledge.follows.firstColumn? a) = true ↔ ∃ b, p.Follows a b :=
  found_iff (.of_step (follows_firstColumn? table) a) fun b holds =>
    (Program.relates_follows a b holds).2

theorem isPreceded_iff (b : Nat)
    : found (knowledge.follows.firstRow? b) = true ↔ ∃ a, p.Follows a b :=
  found_iff (.of_step (follows_firstRow? table) b) fun a holds =>
    (Program.relates_follows a b holds).1

end Follows

include describes in
theorem Relation.Parent.modes_agree (table : knowledge.parent.Tabulates p.Parent)
    : (Parent.modes knowledge).Agree p (onLines p.Parent) ReadsLine ReadsLine (· = ·) first second := by
  refine (Parent.modes_answersLines describes table).agree ?_ (Parent.modes_plain _)
  exact Modes.anything_of_table describes Program.relates_parent table (hasChildren_iff table)
    (hasParent_iff table) (fun _ => rfl) (fun _ => rfl) (fun _ => rfl) (fun _ => rfl) fun _ _ => rfl

include describes in
theorem Relation.ParentStar.modes_agree (table : knowledge.parent.Tabulates p.Parent)
    : (ParentStar.modes knowledge).Agree p (onLines (TransGen p.Parent)) ReadsLine ReadsLine (· = ·)
        first second := by
  refine (ParentStar.modes_answersLines describes table).agree ?_ (ParentStar.modes_plain _)
  exact (Modes.anything_of_table describes Program.relates_parent table (hasChildren_iff table)
    (hasParent_iff table) (fun _ => rfl) (fun _ => rfl) (fun _ => rfl) (fun _ => rfl)
    fun _ _ => rfl).transGen

include describes in
theorem Relation.FollowsStar.modes_agree (table : knowledge.follows.Tabulates p.Follows)
    : (FollowsStar.modes knowledge).Agree p (onLines (TransGen p.Follows)) ReadsLine ReadsLine
        (· = ·) first second := by
  refine (FollowsStar.modes_answersLines describes table).agree ?_ (FollowsStar.modes_plain _)
  exact (Modes.anything_of_table describes Program.relates_follows table (isFollowed_iff table)
    (isPreceded_iff table) (fun _ => rfl) (fun _ => rfl) (fun _ => rfl) (fun _ => rfl)
    fun _ _ => rfl).transGen

end Nesting

/-- However Parent, Parent* and Follows* are asked about an accepted program, the answer is the truth
value or a projection of one relation, that of standing directly inside, inside at any depth, or later
in the same list.
-/
theorem Analysis.nesting_modes_agree {text : String} {a : Analysis}
    (accepted : Analysis.ofText text = .ok a) (filled : a.program.Filled)
    (short : a.program.Short) (first second : Kind)
    : (Parent.modes a.knowledge).Agree a.program (onLines a.program.Parent)
        ReadsLine ReadsLine (· = ·) first second
      ∧ (ParentStar.modes a.knowledge).Agree a.program (onLines (TransGen a.program.Parent))
        ReadsLine ReadsLine (· = ·) first second
      ∧ (FollowsStar.modes a.knowledge).Agree a.program (onLines a.program.Later)
        ReadsLine ReadsLine (· = ·) first second := by
  have describes := Analysis.describes accepted
  have parents := describes.parent_tabulates short filled
  have follows := describes.follows_tabulates short
  have later : a.program.Later = TransGen a.program.Follows := by
    funext x y
    exact propext Program.transGen_follows_iff.symm
  rw [later]
  exact ⟨Parent.modes_agree describes parents, ParentStar.modes_agree describes parents,
    FollowsStar.modes_agree describes follows⟩

set_option maxRecDepth 10000 in
/-- A loop inside a branch: the statement inside the loop is inside the branch too. -/
theorem Analysis.nesting_modes_agree_branch
    : ∃ a, Analysis.ofText "procedure A \x7b if i then \x7b while j \x7b x = y; \x7d call B; \x7d
          else \x7b y = 1; \x7d z = x; \x7d procedure B \x7b y = 1; \x7d" = .ok a
      ∧ a.program.Filled ∧ a.program.Short
      ∧ (ParentStar.modes a.knowledge).memberMember (.line 1) (.name "3") = .ok true
      ∧ (ParentStar.modes a.knowledge).Agree a.program (onLines (TransGen a.program.Parent))
        ReadsLine ReadsLine (· = ·) .branch .assignment := by
  refine exists_ok_of (fun a => a.program.Filled ∧ a.program.Short
      ∧ (ParentStar.modes a.knowledge).memberMember (.line 1) (.name "3") = .ok true)
    (by decide +kernel) fun a source ⟨filled, short, inside⟩ => ?_
  exact ⟨filled, short, inside,
    (Analysis.nesting_modes_agree source filled short .branch .assignment).2.1⟩

end ProgramQuery

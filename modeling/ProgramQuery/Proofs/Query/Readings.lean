import ProgramQuery.Proofs.Query.Shape

/-! Every query that can be read has a tree of the right shape. Wherever a name is taken in a clause, the
node for it carries the type that the name was declared with.
-/

namespace ProgramQuery.Query

open Text ProgramQuery.Tree

/-- A node for a synonym, with the type that was declared for it. -/
def Declared (declarations : Keyed (Option String)) (t : Tree) : Prop :=
  ∃ type x children, t = .node type x 0 children ∧ declarations.get? x = some (some type)
    ∧ type ∈ entityLabels

def IsToken (t : Tree) : Prop :=
  t = .leaf "" "" ∨ ∃ (kind : TokenKind) (text : String), kind ≠ .name ∧ t = .leaf kind.title text

namespace Parser

open ParserState (Step)

variable {fixed : Option (Keyed (Option String))} {scope : Scope} {s : ParserState}
  {kind : TokenKind} {type label : String}

/-- Where a synonym can stand, one that is declared stands or a token that is no name. -/
def Placed (fixed : Option (Keyed (Option String))) (t : Tree) : Prop :=
  ∀ declarations ∈ fixed, Declared declarations t ∨ IsToken t

/-- A reference of the right shape in its place. -/
def Refers (fixed : Option (Keyed (Option String))) (t : Tree) : Prop :=
  IsReference t ∧ Placed fixed t

/-- What may stand for a variable. The name of no variable leaves nothing. -/
def IsTarget (fixed : Option (Keyed (Option String))) (t : Tree) : Prop :=
  t = .missing ∨ ∃ kind text, t = .leaf kind text ∧ Refers fixed t
    ∧ kind ∈ ["VARIABLE", "EVERYTHING", "IDENT_QUOTE"]

/-- A relation of the right shape, with both arguments in their places. -/
def Relates (fixed : Option (Keyed (Option String))) (t : Tree) : Prop :=
  IsRelation t ∧ ∀ u ∈ t.children, Placed fixed u

def Describes (fixed : Option (Keyed (Option String))) (t : Tree) : Prop :=
  IsPattern t ∧ ∀ u ∈ t.children.take 2, Placed fixed u

def Compares (fixed : Option (Keyed (Option String))) (t : Tree) : Prop :=
  IsComparison t ∧ ∀ u ∈ t.children, Placed fixed u

theorem placed_of_finds {x : String} {children : List Tree} (known : type ∈ entityLabels)
    (finds : ∀ declarations ∈ fixed, Finds declarations type x)
    : Placed fixed (.node type x 0 children) := by
  intro declarations isFixed
  rcases finds declarations isFixed with ⟨-, rfl⟩ | found
  · exact absurd known (by decide)
  · exact .inl ⟨type, x, children, rfl, found, known⟩

theorem placed_of_kind {text : String} (other : kind ≠ .name) : Placed fixed (.leaf kind.title text) :=
  fun _ _ => .inr (.inr ⟨kind, text, other, rfl⟩)

theorem isReference_plainText (regular : s.Regular fixed) (taken : Taken kind s)
    (known : kind ∈ [.everything, .integer, .openParenthesis, .comma])
    : IsReference (.leaf (titleOf s.prev) (plainText s.prev)) := by
  rw [taken.titleOf_prev]
  simp only [List.mem_cons, List.not_mem_nil, or_false] at known
  rcases known with rfl | rfl | rfl | rfl
  · rw [taken.plainText_prev regular rfl (forall_mem_of_all (by decide))]
    exact .everything
  · obtain ⟨t, prev, isInteger⟩ := taken
    rw [plainText, prev, rawText]
    exact .line ((regular.prev t prev).integer isInteger)
  · rw [taken.plainText_prev regular rfl (forall_mem_of_all (by decide))]
    exact .opening
  · rw [taken.plainText_prev regular rfl (forall_mem_of_all (by decide))]
    exact .comma

theorem isReference_no_quote {text : String} (reference : IsReference (.leaf label text))
    : '"' ∉ text.toList := by
  intro member
  cases reference with
  | synonym _ named => exact (isQuotable_solid named _ member).2.1 rfl
  | quoted named => exact (isQuotable_solid named _ member).2.1 rfl
  | line numeral =>
    obtain ⟨c, cs, heading, digits⟩ := isNumeral_iff.mp numeral
    exact absurd (digits _ (heading ▸ member)) (by decide)
  | everything => exact absurd member (by decide)
  | opening => exact absurd member (by decide)
  | comma => exact absurd member (by decide)

theorem isReference_unquoted (regular : s.Regular fixed) (taken : Taken kind s)
    (known : kind ∈ [.everything, .integer, .openParenthesis, .comma, .quotedName])
    : IsReference (.leaf (titleOf s.prev) (unquoted s.prev)) := by
  by_cases isQuoted : kind = .quotedName
  · subst isQuoted
    rw [taken.titleOf_prev]
    obtain ⟨t, prev, isQuoted⟩ := taken
    rw [unquoted, plainText, prev, rawText]
    exact .quoted ((regular.prev t prev).quotedName isQuoted)
  · have reference := isReference_plainText regular taken (by simpa [isQuoted] using known)
    have kept : unquoted s.prev = plainText s.prev :=
      without_of_not_mem (isReference_no_quote reference)
    rwa [kept]

theorem reads_noAnswer {α : Type} {post : α → ParserState → Prop} : Reads fixed scope s noAnswer post :=
  .get (.throw _)

theorem reads_lineNumber {text : Option Token → String}
    : Reads fixed scope s (lineNumber text) fun _ s' => Taken .integer s' := by
  unfold lineNumber
  refine .get ?_
  unfold numeral
  cases readNumeral (text s.next) with
  | error fault => exact .throw _
  | ok line =>
    rw [pure_bind]
    refine .inProgram ?_
    split
    · exact reads_noAnswer
    · exact reads_expect

/-- Where nothing is written, the argument is the parenthesis or the comma in front of it. -/
def Opened (s : ParserState) : Prop :=
  Taken .openParenthesis s ∨ Taken .comma s

section References

theorem reads_plainLeaf (taken : Taken kind s)
    (known : kind ∈ [.everything, .integer, .openParenthesis, .comma])
    : Reads fixed scope s (takenLeaf plainText) fun t _ => Refers fixed t := by
  refine .get (.regularly fun regular => .pure ⟨isReference_plainText regular taken known, ?_⟩)
  rw [taken.titleOf_prev]
  exact placed_of_kind (by rintro rfl; simp at known)

theorem reads_unquotedLeaf (taken : Taken kind s)
    (known : kind ∈ [.everything, .integer, .openParenthesis, .comma, .quotedName])
    : Reads fixed scope s (takenLeaf unquoted) fun t _ => Refers fixed t := by
  refine .get (.regularly fun regular => .pure ⟨isReference_unquoted regular taken known, ?_⟩)
  rw [taken.titleOf_prev]
  exact placed_of_kind (by rintro rfl; simp at known)

theorem reads_stmtRef (opened : Opened s)
    : Reads fixed scope s stmtRef fun t _ => Refers fixed t := by
  have otherwise : Reads fixed scope s (takenLeaf plainText) fun t _ => Refers fixed t := by
    rcases opened with opening | comma
    · exact reads_plainLeaf opening (by simp)
    · exact reads_plainLeaf comma (by simp)
  refine .peek ?_
  generalize s.next.map (·.kind) = next
  cases next with
  | none => exact otherwise
  | some kind =>
    cases kind with
    | name =>
      refine reads_typed.bind ?_
      rintro ⟨type, x⟩ s ⟨⟨-, finds⟩, named, -⟩
      dsimp only at finds ⊢
      split
      next listed =>
        have lines : ∀ type ∈ lineTypes, type ∈ entityLabels := by decide
        have known := lines type (by simpa using listed)
        exact .pure ⟨.synonym known named, placed_of_finds known finds⟩
      next => exact .throw _
    | everything =>
      exact reads_expect.bind fun _ s taken => reads_plainLeaf taken (by simp)
    | integer =>
      exact reads_lineNumber.bind fun _ s taken => reads_plainLeaf taken (by simp)
    | _ => exact otherwise

theorem reads_procRef (opened : Opened s)
    : Reads fixed scope s procRef fun t _ => Refers fixed t := by
  have otherwise : Reads fixed scope s (takenLeaf unquoted) fun t _ => Refers fixed t := by
    rcases opened with opening | comma
    · exact reads_unquotedLeaf opening (by simp)
    · exact reads_unquotedLeaf comma (by simp)
  refine .peek ?_
  generalize s.next.map (·.kind) = next
  cases next with
  | none => exact otherwise
  | some kind =>
    cases kind with
    | name =>
      refine reads_typed.bind ?_
      rintro ⟨type, x⟩ s ⟨⟨-, finds⟩, named, -⟩
      dsimp only at finds ⊢
      split
      next isProcedure =>
        rw [isProcedure] at finds ⊢
        exact .pure ⟨.synonym (by decide) named, placed_of_finds (by decide) finds⟩
      next => exact .throw _
    | everything =>
      exact reads_expect.bind fun _ s taken => reads_unquotedLeaf taken (by simp)
    | quotedName =>
      refine .read (.get ?_)
      split
      · exact reads_noAnswer
      · exact reads_expect.bind fun _ s taken => reads_unquotedLeaf taken (by simp)
    | _ => exact otherwise

/-- A variable is what may stand in a pattern too. -/
theorem reads_varRef
    : Reads fixed scope s varRef fun t _ => IsTarget fixed t := by
  have leaf {s : ParserState} {kind : TokenKind} (taken : Taken kind s)
      (known : kind ∈ [.everything, .quotedName])
      : Reads fixed scope s (takenLeaf unquoted) fun t _ => IsTarget fixed t := by
    have listed : kind ∈ [.everything, .integer, .openParenthesis, .comma, .quotedName] := by
      rcases List.mem_pair.mp known with rfl | rfl <;> decide
    refine .get (.regularly fun regular => .pure
      (.inr ⟨_, _, rfl, ⟨isReference_unquoted regular taken listed, ?_⟩, ?_⟩))
    · rw [taken.titleOf_prev]
      exact placed_of_kind (by rintro rfl; simp at known)
    · rw [taken.titleOf_prev]
      rcases List.mem_pair.mp known with rfl | rfl <;> decide
  refine .peek ?_
  generalize s.next.map (·.kind) = next
  cases next with
  | none => exact reads_noAnswer
  | some kind =>
    cases kind with
    | name =>
      refine reads_typed.bind ?_
      rintro ⟨type, x⟩ s ⟨⟨-, finds⟩, named, -⟩
      dsimp only at finds ⊢
      split
      next isVariable =>
        rw [isVariable] at finds ⊢
        exact .pure (.inr ⟨_, x, rfl,
          ⟨.synonym (by decide) named, placed_of_finds (by decide) finds⟩, by simp⟩)
      next => exact .throw _
    | everything =>
      exact reads_expect.bind fun _ s taken => leaf taken (by simp)
    | quotedName =>
      refine .read (.get (reads_expect.bind fun _ s taken => ?_))
      split
      · exact .pure (.inl rfl)
      · exact leaf taken (by simp)
    | _ => exact reads_noAnswer

end References

/-- Two references, each of the right shape. -/
def IsPair (fixed : Option (Keyed (Option String))) (ts : List Tree) : Prop :=
  ∃ first second, ts = [first, second] ∧ Refers fixed first ∧ Refers fixed second

theorem reads_alikeArguments {reference : Parser Tree} {reflexive : Bool}
    (reads : ∀ {s : ParserState}, Opened s →
      Reads fixed scope s reference fun t _ => Refers fixed t)
    (opening : Taken .openParenthesis s)
    : Reads fixed scope s (alikeArguments reference reflexive) fun ts _ => IsPair fixed ts := by
  refine (reads (.inl opening)).bind fun first s isFirst => ?_
  refine reads_expect.bind fun _ s comma => ?_
  refine (reads (.inr comma)).bind fun second s isSecond => ?_
  dsimp only
  split
  · exact reads_noAnswer
  · exact .pure ⟨first, second, rfl, isFirst, isSecond⟩

theorem reads_effectArguments (opening : Taken .openParenthesis s)
    : Reads fixed scope s effectArguments fun ts _ =>
        IsPair fixed ts ∨ ∃ first, ts = [first, .missing] := by
  have rest {s : ParserState} {first : Tree}
      (isFirst : Refers fixed first)
      : Reads fixed scope s (do
          expect .comma
          let second ← varRef
          return [first, second]) fun ts _ => IsPair fixed ts ∨ ∃ first, ts = [first, .missing] := by
    refine reads_expect.bind fun _ _ _ => ?_
    refine reads_varRef.bind fun second s isSecond => .pure ?_
    rcases isSecond with rfl | ⟨_, _, _, isSecond, _⟩
    · exact .inr ⟨first, rfl⟩
    · exact .inl ⟨first, second, rfl, isFirst, isSecond⟩
  have asProcedure : Reads fixed scope s procRef _ := reads_procRef (.inl opening)
  have asStatement : Reads fixed scope s stmtRef _ := reads_stmtRef (.inl opening)
  refine .peek ?_
  generalize s.next.map (·.kind) = next
  cases next with
  | none => exact asProcedure.bind fun first s isFirst => rest isFirst
  | some kind =>
    cases kind with
    | name =>
      refine .get (.declaredType ?_)
      split
      · exact asProcedure.bind fun first s isFirst => rest isFirst
      · exact asStatement.bind fun first s isFirst => rest isFirst
    | integer => exact asStatement.bind fun first s isFirst => rest isFirst
    | _ => exact asProcedure.bind fun first s isFirst => rest isFirst

theorem isRelation_pair (r : RelationName) {first second : Tree}
    (isFirst : Refers fixed first) (isSecond : Refers fixed second)
    : Relates fixed (.node r.title "" 0 [first, second]) :=
  ⟨.node r isFirst.1 isSecond.1, by simpa [children] using ⟨isFirst.2, isSecond.2⟩⟩

theorem reads_effectRelation (r : RelationName)
    : Reads fixed scope s (effectRelation r.title) fun t _ => Relates fixed t := by
  unfold effectRelation
  refine reads_expectTitle.bind fun _ _ _ => ?_
  refine reads_expect.bind fun _ s opening => ?_
  dsimp only
  split
  · refine (reads_effectArguments opening).bind fun ts s shaped => ?_
    refine reads_expect.bind fun _ _ _ => ?_
    rcases shaped with ⟨first, second, rfl, isFirst, isSecond⟩ | ⟨first, rfl⟩
    · split
      · exact .throw _
      · split
        · exact reads_noAnswer
        · exact .pure (isRelation_pair r isFirst isSecond)
    · split
      · exact .throw _
      · rw [if_pos (by simp [Tree.label?])]
        exact reads_noAnswer
  next unknown =>
    rw [pure_bind]
    refine reads_expect.bind fun _ _ _ => ?_
    rw [if_pos (by simpa using unknown)]
    exact .throw _

/-- The relations whose arguments are alike. -/
theorem reads_alikeRelation {r : RelationName}
    (alike : r.title ∈ ["PARENT", "PARENTT", "FOLLOWS", "FOLLOWST", "CALLS", "CALLST", "NEXT", "NEXTT"])
    : Reads fixed scope s (alikeRelation r.title) fun t _ => Relates fixed t := by
  unfold alikeRelation
  refine reads_expectTitle.bind fun _ _ _ => ?_
  refine reads_expect.bind fun _ s opening => ?_
  have closing {arguments : Parser (List Tree)}
      (reads : Reads fixed scope s arguments fun ts _ => IsPair fixed ts)
      : Reads fixed scope s (do
          let ts ← arguments
          expect .closeParenthesis
          return .node r.title "" 0 ts) fun t _ => Relates fixed t := by
    refine reads.bind ?_
    rintro _ s ⟨first, second, rfl, isFirst, isSecond⟩
    exact reads_expect.bind fun _ _ _ => .pure (isRelation_pair r isFirst isSecond)
  have lines (reflexive : Bool) : Reads fixed scope s (alikeArguments stmtRef reflexive) _ :=
    reads_alikeArguments reads_stmtRef opening
  have procedures : Reads fixed scope s (alikeArguments procRef false) _ :=
    reads_alikeArguments reads_procRef opening
  split
  · exact closing (lines false)
  · split
    · exact closing procedures
    · split
      · exact closing (lines true)
      next other other' other'' =>
        simp only [List.mem_cons, List.not_mem_nil, or_false] at alike
        simp only [List.contains_eq_mem, List.mem_cons, List.not_mem_nil, or_false,
          decide_eq_true_eq] at other other' other''
        tauto

theorem reads_relRef
    : Reads fixed scope s relRef fun t _ => Relates fixed t := by
  refine .peek ?_
  generalize s.next.map (·.kind) = next
  cases next with
  | none => exact .pure ⟨.missing, nofun⟩
  | some kind =>
    cases kind with
    | relation r =>
      cases r
      case modifies => exact reads_effectRelation .modifies
      case modifiesStar => exact reads_effectRelation .modifiesStar
      case uses => exact reads_effectRelation .uses
      case usesStar => exact reads_effectRelation .usesStar
      all_goals exact reads_alikeRelation (by decide)
    | affects => exact .throw _
    | affectsStar => exact .throw _
    | _ => exact .pure ⟨.missing, nofun⟩

/-- Conditions joined by `and` are read one by one. -/
theorem reads_joined {condition : Parser Tree} {shape : Tree → Prop}
    (reads : ∀ {s : ParserState}, Reads fixed scope s condition fun t _ => shape t)
    (fuel : Nat)
    : Reads fixed scope s (joined condition fuel) fun ts _ => ∀ t ∈ ts, shape t := by
  induction fuel generalizing s with
  | zero => exact .throw _
  | succ fuel ih =>
    refine reads.bind fun first s isFirst => .peek ?_
    split
    · refine reads_shift.bind fun _ _ _ => ?_
      refine ih.bind fun rest s areLater => .pure ?_
      exact List.forall_mem_cons.mpr ⟨isFirst, areLater⟩
    · exact .pure (by simpa using isFirst)

/-- What is no name of a synonym and has no synonyms below. -/
theorem synonyms_leaf {text : String} (unnamed : isNamed label text = false)
    : (Tree.leaf label text).synonyms = [] := by
  simp [leaf, synonyms, synonymsIn, unnamed]

theorem title_not_named (kind : TokenKind) (text : String) : isNamed kind.title text = false := by
  have other : kind.title ∉ "" :: entityLabels := by
    cases kind
    case relation r => cases r <;> decide
    all_goals decide
  simp only [List.mem_cons, not_or] at other
  simp [isNamed, other]

theorem synonyms_withChildren {t : Tree} {more : List Tree} (plain : t.synonyms = [])
    (below : ∀ u ∈ more, u.synonyms = [])
    : (t.withChildren more).synonyms = [] := by
  cases t with
  | missing => rfl
  | node label text line children =>
    simp only [synonyms, List.append_eq_nil_iff] at plain
    simp only [withChildren, synonyms, plain.1, List.nil_append, List.eq_nil_iff_forall_not_mem,
      mem_synonymsIn, List.mem_append] at plain ⊢
    rintro x ⟨u, inside | inside, member⟩
    · exact plain.2 x ⟨u, inside, member⟩
    · simp [below u inside] at member

/-- A token that was taken has a leaf without synonyms. -/
theorem reads_signLeaf {t : Token} (prev : s.prev = some t)
    {text : Option Token → String}
    : Reads fixed scope s (takenLeaf text) fun t _ => t.synonyms = [] := by
  refine .get (.pure (synonyms_leaf ?_))
  rw [prev, titleOf]
  exact title_not_named t.kind _

theorem reads_everything {failure : Failure}
    : Reads fixed scope s (everything failure) fun t _ => t.synonyms = [] := by
  refine .peek ?_
  split
  next isEverything =>
    obtain ⟨t, next, -⟩ := Option.map_eq_some_iff.mp isEverything
    exact reads_shift.bind fun _ s prev => reads_signLeaf (prev.trans next)
  next => exact .throw _

section Expressions

variable {operand inner : Parser Tree}

theorem reads_chain {isSign : TokenKind → Bool}
    (reads : ∀ {s : ParserState}, Reads fixed scope s operand fun t _ => t.synonyms = [])
    (fuel : Nat) {left : Tree} (plain : left.synonyms = [])
    : Reads fixed scope s (chain isSign operand fuel left) fun t _ => t.synonyms = [] := by
  induction fuel generalizing s left with
  | zero => exact .throw _
  | succ fuel ih =>
    refine .peek ?_
    split
    next signed =>
      obtain ⟨t, next⟩ : ∃ t, s.next = some t := by
        cases next : s.next with
        | none => simp [next] at signed
        | some t => exact ⟨t, rfl⟩
      refine reads_shift.bind fun _ s prev => ?_
      refine (reads_signLeaf (prev.trans next)).bind fun sign s plainSign => ?_
      refine reads.bind fun right s plainRight => ih ?_
      refine synonyms_withChildren plainSign ?_
      simp [plain, plainRight]
    next => exact .pure plain

theorem reads_factorWith
    (reads : ∀ {s : ParserState}, Reads fixed scope s inner fun t _ => t.synonyms = [])
    : Reads fixed scope s (factorWith inner) fun t _ => t.synonyms = [] := by
  refine .peek ?_
  cases next : s.next with
  | none => exact .pure rfl
  | some t =>
    rw [Option.map_some]
    cases t.kind with
    | openParenthesis =>
      refine reads_shift.bind fun _ _ _ => ?_
      refine reads.bind fun e s plain => ?_
      exact reads_expect.bind fun _ _ _ => .pure plain
    | integer =>
      exact reads_shift.bind fun _ s prev => reads_signLeaf (prev.trans next)
    | name | quotedName =>
      refine reads_shift.bind fun _ _ _ => .get (.pure (synonyms_leaf ?_))
      simp [isNamed, entityLabels]
    | _ => exact .pure rfl

theorem reads_termWith (fuel : Nat)
    (reads : ∀ {s : ParserState}, Reads fixed scope s inner fun t _ => t.synonyms = [])
    : Reads fixed scope s (termWith fuel inner) fun t _ => t.synonyms = [] :=
  (reads_factorWith reads).bind fun _ _ plain =>
    reads_chain (reads_factorWith reads) fuel plain

theorem reads_expressionWithin (fuel : Nat)
    : Reads fixed scope s (expressionWithin fuel) fun t _ => t.synonyms = [] := by
  induction fuel generalizing s with
  | zero => exact .throw _
  | succ fuel ih =>
    exact (reads_termWith fuel ih).bind fun _ _ plain =>
      reads_chain (reads_termWith fuel ih) fuel plain

theorem reads_expression
    : Reads fixed scope s expression fun t _ => t.synonyms = [] :=
  .get (reads_expressionWithin _)

end Expressions

theorem reads_rightHandSide
    : Reads fixed scope s rightHandSide fun t _ => t.synonyms = [] := by
  have inQuotes {s : ParserState}
      : Reads fixed scope s (do
          expect .quote
          let e ← expression
          expect .quote
          return e) fun t _ => t.synonyms = [] := by
    refine reads_expect.bind fun _ _ _ => ?_
    refine reads_expression.bind fun e s plain => ?_
    exact reads_expect.bind fun _ _ _ => .pure plain
  have around {s : ParserState} {whole : Tree} (plainWhole : whole.synonyms = [])
      {part : Parser Tree} (reads : Reads fixed scope s part fun t _ => t.synonyms = [])
      : Reads fixed scope s (do
          let e ← part
          expect .everything
          return whole.withChildren [e]) fun t _ => t.synonyms = [] := by
    refine reads.bind fun e s plain => ?_
    refine reads_expect.bind fun _ _ _ => .pure ?_
    exact synonyms_withChildren plainWhole (by simpa using plain)
  refine .peek ?_
  cases next : s.next with
  | none => exact inQuotes
  | some t =>
    rw [Option.map_some]
    cases t.kind with
    | everything =>
      refine reads_shift.bind fun _ s prev => ?_
      refine (reads_signLeaf (prev.trans next)).bind fun whole s plain => .peek ?_
      generalize s.next.map (·.kind) = next
      cases next with
      | none => exact .pure plain
      | some kind =>
        cases kind with
        | quotedName => exact around plain reads_expression
        | quote => exact around plain inQuotes
        | _ => exact .pure plain
    | quotedName => exact reads_expression
    | _ => exact inQuotes

theorem reads_patternNode {title x : String} {target : Tree}
    {rest : List Tree} (typed : type ∈ entityLabels) (named : isQuotable x = true)
    (finds : ∀ known ∈ fixed, Finds known type x)
    (isTarget : IsTarget fixed target)
    (plain : ∀ t ∈ rest, t.synonyms = [])
    : Reads fixed scope s (patternNode title type x (target :: rest)) fun t _ => Describes fixed t := by
  unfold patternNode
  rcases isTarget with rfl | ⟨kind, text, rfl, ⟨reference, placed⟩, known⟩
  · exact reads_noAnswer
  · refine .pure ⟨.node typed named reference known plain, ?_⟩
    simpa [children] using ⟨placed_of_finds typed finds, placed⟩

/-- All patterns begin with a variable. -/
theorem reads_target {rest : Tree → Parser Tree}
    (next : ∀ {s : ParserState} {target : Tree}, IsTarget fixed target →
      Reads fixed scope s (rest target) fun t _ => Describes fixed t)
    : Reads fixed scope s (do
        expect .openParenthesis
        let target ← varRef
        expect .comma
        rest target) fun t _ => Describes fixed t := by
  refine reads_expect.bind fun _ _ _ => ?_
  refine reads_varRef.bind fun target s isTarget => ?_
  exact reads_expect.bind fun _ _ _ => next isTarget

section Patterns

variable (named : isQuotable (plainText s.prev) = true)
include named

theorem reads_assignPattern (finds : ∀ known ∈ fixed, Finds known "ASSIGN" (plainText s.prev))
    : Reads fixed scope s assignPattern fun t _ => Describes fixed t := by
  refine .get (reads_target fun isTarget => ?_)
  refine reads_rightHandSide.bind fun value s plain => ?_
  refine reads_expect.bind fun _ _ _ => ?_
  exact reads_patternNode (by decide) named finds isTarget (by simpa using plain)

theorem reads_branchPattern (finds : ∀ known ∈ fixed, Finds known "IF" (plainText s.prev))
    : Reads fixed scope s branchPattern fun t _ => Describes fixed t := by
  refine .get (reads_target fun isTarget => ?_)
  refine reads_everything.bind fun second s plain => ?_
  refine reads_expect.bind fun _ _ _ => ?_
  refine reads_everything.bind fun third s plain' => ?_
  refine reads_expect.bind fun _ _ _ => ?_
  exact reads_patternNode (by decide) named finds isTarget (by simp [plain, plain'])

theorem reads_loopPattern (finds : ∀ known ∈ fixed, Finds known "WHILE" (plainText s.prev))
    : Reads fixed scope s loopPattern fun t _ => Describes fixed t := by
  refine .get (reads_target fun isTarget => ?_)
  refine reads_everything.bind fun second s plain => ?_
  refine reads_expect.bind fun _ _ _ => ?_
  exact reads_patternNode (by decide) named finds isTarget (by simpa using plain)

end Patterns

theorem reads_patternCond
    : Reads fixed scope s patternCond fun t _ => Describes fixed t := by
  refine .peek ?_
  split
  · refine reads_typed.bind ?_
    rintro ⟨type, x⟩ s ⟨⟨-, finds⟩, named, -, rfl⟩
    dsimp only at finds ⊢
    split
    next isAssignment => exact reads_assignPattern named (isAssignment ▸ finds)
    · split
      next isBranch => exact reads_branchPattern named (isBranch ▸ finds)
      · split
        next isLoop => exact reads_loopPattern named (isLoop ▸ finds)
        · exact .throw _
  · exact .throw _

/-- Whatever has an attribute has a type. -/
theorem reads_hasAttribute
    : Reads fixed scope s (hasAttribute type) fun has _ => has = true → type ≠ "" := by
  refine .get (.pure ?_)
  rintro has rfl
  simp at has

theorem reads_attribute {text : Option Token → String}
    : Reads fixed scope s (do
        expect .attr
        takenLeaf text) fun t _ => t.synonyms = [] :=
  reads_expect.bind fun _ _ ⟨_, prev, _⟩ => reads_signLeaf prev

theorem reads_attributeValue
    : Reads fixed scope s attributeValue fun t _ =>
        (∀ y ∈ t.synonyms, isQuotable y = true) ∧ Placed fixed t := by
  refine reads_typed.bind ?_
  rintro ⟨type, x⟩ s ⟨⟨typed, finds⟩, named, -⟩
  refine reads_hasAttribute.bind fun has s whenHas => ?_
  dsimp only at typed finds ⊢
  split
  · exact .throw _
  next isHas =>
    have known : type ∈ entityLabels := typed.resolve_left (whenHas (by simpa using isHas))
    refine reads_attribute.bind fun attr s plain => .pure
      ⟨fun y member => ?_, placed_of_finds known finds⟩
    simp only [synonyms, synonymsIn, plain, List.append_nil] at member
    split at member
    · rwa [List.mem_singleton.mp member]
    · cases member

/-- The token that an attribute is compared with is no synonym, and neither is a missing one. -/
theorem synonyms_bareToken (token : Option Token)
    : (Tree.leaf (titleOf token) (trim (without '"' (without '.' (rawText token))))).synonyms = [] := by
  cases token with
  | none => rfl
  | some t => exact synonyms_leaf (title_not_named t.kind _)

theorem placed_bareToken {token : Option Token} (other : token.map (·.kind) ≠ some .name)
    : Placed fixed (.leaf (titleOf token) (trim (without '"' (without '.' (rawText token))))) := by
  cases token with
  | none => exact fun _ _ => .inr (.inl rfl)
  | some t => exact placed_of_kind (by simpa using other)

theorem reads_comparand
    : Reads fixed scope s comparand fun t _ =>
        (∀ y ∈ t.synonyms, isQuotable y = true) ∧ Placed fixed t := by
  have plain {t : Tree} (plain : t.synonyms = []) : ∀ y ∈ t.synonyms, isQuotable y = true := by
    simp [plain]
  refine reads_expect.bind fun _ s _ => .peek ?_
  split
  · refine reads_shift.bind fun _ _ _ => .get ?_
    refine reads_shift.bind fun _ _ _ => ?_
    refine reads_expect.bind fun _ _ _ => .pure ⟨plain ?_, ?_⟩
    · exact synonyms_leaf (by simp [isNamed, entityLabels])
    · exact placed_of_kind (show TokenKind.quotedName ≠ .name by decide)
  · refine .get (.peek ?_)
    have bare (other : s.next.map (·.kind) ≠ some .name) :=
      And.intro (plain (synonyms_bareToken s.next)) (@placed_bareToken fixed s.next other)
    generalize s.next.map (·.kind) = next at bare
    cases next with
    | none => exact .pure (bare (by simp))
    | some kind =>
      cases kind with
      | name => exact reads_attributeValue
      | quotedName => exact reads_shift.bind fun _ _ _ => .pure (bare (by simp))
      | integer =>
        exact reads_lineNumber.bind fun _ _ _ => .pure (bare (by simp))
      | _ => exact .pure (bare (by simp))

theorem reads_checkComparand {compared : Tree}
    : Reads fixed scope s (checkComparand type compared) fun _ _ => True := by
  unfold checkComparand
  split
  · split
    · refine .read ?_
      split
      · exact reads_noAnswer
      · exact .pure trivial
    · split
      · refine .read ?_
        split
        · exact reads_noAnswer
        · exact .pure trivial
      · exact .pure trivial
  next text _ =>
    unfold numeral
    cases readNumeral text with
    | error fault => exact .throw _
    | ok line =>
      rw [pure_bind]
      refine .inProgram ?_
      split
      · exact reads_noAnswer
      · exact .pure trivial
  · exact .pure trivial

theorem reads_attrCond
    : Reads fixed scope s attrCond fun t _ => Compares fixed t := by
  refine reads_typed.bind ?_
  rintro ⟨type, x⟩ s ⟨⟨typed, finds⟩, named, -⟩
  refine reads_hasAttribute.bind fun has s whenHas => ?_
  dsimp only at typed finds ⊢
  split
  · exact .throw _
  next isHas =>
    have known : type ∈ entityLabels := typed.resolve_left (whenHas (by simpa using isHas))
    have rest {s : ParserState} {attributes : List Tree}
        (plain : ∀ t ∈ attributes, t.synonyms = [])
        : Reads fixed scope s (do
            let compared ← comparand
            checkComparand type compared
            return .node "ATTR" "" 0 [.node type x 0 attributes, compared])
            fun t _ => Compares fixed t := by
      refine reads_comparand.bind fun compared s ⟨others, placed⟩ => ?_
      refine reads_checkComparand.bind fun _ _ _ =>
        .pure ⟨.node known named plain others, ?_⟩
      simpa [children] using ⟨placed_of_finds known finds, placed⟩
    split
    · exact rest (by simp)
    · have attributes : Reads fixed scope s (do return [← attributeName]) fun attributes _ =>
          ∀ t ∈ attributes, t.synonyms = [] :=
        reads_attribute.bind fun attr s plain => .pure (by simpa using plain)
      exact attributes.bind fun attributes s plain => rest plain

theorem reads_declare {x : String} (known : type ∈ entityLabels)
    : Reads none scope s
        (MonadStateOf.set { s with declarations := s.declarations.put x (some type) })
        fun _ _ => True := by
  constructor
  rintro regular _ _ ⟨⟩
  refine ⟨⟨regular.next, regular.prev, fun entry member => ?_, regular.parts, by simp⟩,
    .single (.declare s _), trivial⟩
  rcases Keyed.mem_put member with rfl | member
  · exact ⟨type, known, rfl⟩
  · exact regular.types entry member

theorem reads_declared (known : type ∈ entityLabels) (fuel : Nat)
    : Reads none scope s (declared type fuel) fun _ _ => True := by
  induction fuel generalizing s with
  | zero => exact .throw _
  | succ fuel ih =>
    refine .get ?_
    split
    · exact reads_shift.mono fun _ _ _ => trivial
    · dsimp only
      split
      · exact .throw _
      · refine (reads_declare known).bind fun _ _ _ => ?_
        refine reads_expect.bind fun _ _ _ => .peek ?_
        split
        · exact reads_shift.bind fun _ _ _ => ih
        · exact ih

theorem reads_declarations (fuel : Nat)
    : Reads none scope s (declarations fuel) fun _ _ => True := by
  induction fuel generalizing s with
  | zero => exact .throw _
  | succ fuel ih =>
    refine .peek ?_
    cases next : s.next with
    | none => exact .throw _
    | some t =>
      rw [Option.map_some]
      cases isKind : t.kind with
      | select => exact .pure trivial
      | declaration =>
        refine reads_shift.bind fun _ s prev => .regularly fun regular => ?_
        have known : trim (upper (rawText s.prev)) ∈ entityLabels := by
          rw [prev, next, rawText]
          exact (regular.prev t (prev.trans next)).declaration isKind
        have type : Reads none scope s declaration _ :=
          .get (reads_declared known s.budget)
        exact type.bind fun _ _ _ => ih
      | _ => exact .throw _

/-- The clauses found so far are of the right shape. -/
structure Clauses.Shaped (fixed : Option (Keyed (Option String))) (found : Clauses) : Prop where
  withs : ∀ t ∈ found.withs, Compares fixed t
  patterns : ∀ t ∈ found.patterns, Describes fixed t
  relations : ∀ t ∈ found.relations, Relates fixed t

theorem reads_clauses (fuel : Nat) {found : Clauses}
    (shaped : found.Shaped fixed)
    : Reads fixed scope s (clauses fuel found) fun found _ => found.Shaped fixed := by
  induction fuel generalizing s found with
  | zero => exact .throw _
  | succ fuel ih =>
    -- each kind of clause adds its conditions to those of its kind
    have clause {condition : Parser Tree} {shape : Tree → Prop} {add : List Tree → Clauses}
        (reads : ∀ {s : ParserState}, Reads fixed scope s condition fun t _ => shape t)
        (adds : ∀ more, (∀ t ∈ more, shape t) → (add more).Shaped fixed)
        : Reads fixed scope s (do
            shift
            let more ← (do joined condition (← get).budget)
            clauses fuel (add more)) fun found _ => found.Shaped fixed := by
      refine reads_shift.bind fun _ s _ => ?_
      have all : Reads fixed scope s (do joined condition (← get).budget) _ :=
        .get (reads_joined reads s.budget)
      exact all.bind fun more s fine => ih (adds more fine)
    refine .peek ?_
    split
    · exact clause reads_relRef fun more fine =>
        ⟨shaped.withs, shaped.patterns, List.forall_mem_append.mpr ⟨shaped.relations, fine⟩⟩
    · exact clause reads_attrCond fun more fine =>
        ⟨List.forall_mem_append.mpr ⟨shaped.withs, fine⟩, shaped.patterns, shaped.relations⟩
    · exact clause reads_patternCond fun more fine =>
        ⟨shaped.withs, List.forall_mem_append.mpr ⟨shaped.patterns, fine⟩, shaped.relations⟩
    · exact .pure shaped

/-- What is selected: `BOOLEAN`, or a synonym with its declared type, or a name that was not declared and
has no type. -/
def Selects (declarations : Keyed (Option String)) (t : Tree) : Prop :=
  t = .leaf "BOOLEAN" "BOOLEAN" ∨ Declared declarations t
    ∨ ∃ x, t = .leaf "" x ∧ declarations.get? x = none

theorem reads_selection
    : Reads fixed scope s selection fun t _ =>
        IsPart (.node "RESULT" "" 0 [t]) ∧ ∀ declarations ∈ fixed, Selects declarations t := by
  have noted : Reads fixed scope s
      (modify fun s => { s with selected := titleOf s.next } : Parser PUnit) fun _ _ => True := by
    constructor
    rintro regular _ _ ⟨⟩
    exact ⟨⟨regular.next, regular.prev, regular.types, regular.parts, regular.declared⟩,
      .single (.select s _), trivial⟩
  refine noted.bind fun _ _ _ => .peek ?_
  split
  · exact .throw _
  · exact reads_shift.bind fun _ _ _ =>
      .pure ⟨.truth, fun _ _ => .inl rfl⟩
  · refine reads_typed.bind ?_
    rintro ⟨type, x⟩ s ⟨⟨typed, finds⟩, named, -⟩
    refine .regularly fun regular => .pure ⟨.result typed named, fun declarations isFixed => .inr ?_⟩
    rcases finds declarations isFixed with ⟨absent, rfl⟩ | found
    · exact .inr ⟨x, rfl, absent⟩
    · obtain ⟨label, known, same⟩ := regular.types _ (regular.declared _ isFixed ▸ Keyed.mem_of_get? found)
      cases same
      exact .inl ⟨type, x, [], rfl, found, known⟩

theorem mem_clauseNode {conditions : List Tree} {t : Tree}
    (member : t ∈ clauseNode label conditions)
    : t = .node label "" 0 conditions := by
  unfold clauseNode at member
  split at member
  · cases member
  · simpa using member

def Clauses.parts (found : Clauses) : List Tree :=
  clauseNode "WITH" found.withs ++ clauseNode "PATTERN" found.patterns
    ++ clauseNode "SUCH_THAT" found.relations

theorem Clauses.Shaped.isPart {found : Clauses} (shaped : found.Shaped fixed)
    : ∀ t ∈ found.parts, IsPart t := by
  simp only [Clauses.parts, List.forall_mem_append]
  refine ⟨⟨fun t member => ?_, fun t member => ?_⟩, fun t member => ?_⟩
  · rw [mem_clauseNode member]
    exact .comparisons fun t member => (shaped.withs t member).1
  · rw [mem_clauseNode member]
    exact .patterns fun t member => (shaped.patterns t member).1
  · rw [mem_clauseNode member]
    exact .relations fun t member => (shaped.relations t member).1

/-- How a whole query is read: steps up to `Select`, then what is selected, and then the clauses. From
`Select` on nothing more is declared. -/
structure Run (scope : Scope) (s : ParserState) (result : Tree) (s₁ : ParserState) (found : Clauses)
    (s₂ s' : ParserState) : Prop where
  opening : ∃ s₀, s₀.Regular (some s'.declarations) ∧ Relation.ReflTransGen Step s s₀
    ∧ selection scope s₀ = .ok result s₁
  regular : ParserState.Regular { s₁ with parts := s₁.parts ++ [.node "RESULT" "" 0 [result]] }
    (some s'.declarations)
  clauses : clauses s₁.budget {} scope { s₁ with parts := s₁.parts ++ [.node "RESULT" "" 0 [result]] }
    = .ok found s₂
  stop : s' = { s₂ with parts := s₂.parts ++ found.parts }

theorem Clauses.shaped_nil : Clauses.Shaped fixed {} := ⟨by simp, by simp, by simp⟩

theorem exists_run {s' : ParserState} {a : Unit} (regular : s.Regular none)
    (given : selectClause scope s = .ok a s')
    : ∃ result s₁ found s₂, Run scope s result s₁ found s₂ s' := by
  obtain ⟨_, s₀, read₀, given⟩ := bind_eq_ok given
  have declared : Reads none scope s designEntity _ := .get (reads_declarations s.budget)
  obtain ⟨regular₀, steps₀, -⟩ := declared.given regular _ _ read₀
  obtain ⟨_, s₁, read₁, given⟩ := bind_eq_ok given
  obtain ⟨opened, steps₁, -⟩ := reads_expect.given regular₀ _ _ read₁
  have regular₁ : s₁.Regular (some s₁.declarations) :=
    ⟨opened.next, opened.prev, opened.types, opened.parts, by simp⟩
  obtain ⟨result, s₂, read₂, given⟩ := bind_eq_ok given
  obtain ⟨regular₂, -, isResult, -⟩ := reads_selection.given regular₁ _ _ read₂
  let s₃ : ParserState := { s₂ with parts := s₂.parts ++ [.node "RESULT" "" 0 [result]] }
  have regular₃ : s₃.Regular (some s₁.declarations) :=
    ⟨regular₂.next, regular₂.prev, regular₂.types,
      List.forall_mem_append.mpr ⟨regular₂.parts, by simpa using isResult⟩, regular₂.declared⟩
  obtain ⟨found, s₄, read₄, given⟩ := @bind_eq_ok _ _ scope s₃ _ _ _ _ given
  have same := ((reads_clauses _ Clauses.shaped_nil).given regular₃ _ _ read₄).1.declared _ rfl
  cases given
  rw [← same] at regular₁ regular₃
  exact ⟨result, s₂, found, s₄, ⟨s₁, regular₁, steps₀.trans steps₁, read₂⟩, regular₃, read₄, rfl⟩

namespace Run

variable {result : Tree} {s₁ s₂ s' : ParserState} {found : Clauses}
  (run : Run scope s result s₁ found s₂ s')
include run

theorem steps : Relation.ReflTransGen Step s s₁ := by
  obtain ⟨s₀, regular₀, steps, read⟩ := run.opening
  exact steps.trans (reads_selection.given regular₀ _ _ read).2.1

theorem isResult : IsPart (.node "RESULT" "" 0 [result]) ∧ Selects s'.declarations result := by
  obtain ⟨s₀, regular₀, -, read⟩ := run.opening
  obtain ⟨-, -, isPart, selects⟩ := reads_selection.given regular₀ _ _ read
  exact ⟨isPart, selects _ rfl⟩

theorem shaped : found.Shaped (some s'.declarations) :=
  ((reads_clauses _ Clauses.shaped_nil).given run.regular _ _ run.clauses).2.2

/-- The parts are what is selected and the clauses. -/
theorem parts : s'.parts = s.parts ++ .node "RESULT" "" 0 [result] :: found.parts := by
  have kept₁ := ParserState.parts_of_steps run.steps
  have kept₂ := ParserState.parts_of_steps
    ((reads_clauses _ Clauses.shaped_nil).given run.regular _ _ run.clauses).2.1
  simp only [run.stop, kept₂, kept₁, List.append_assoc, List.singleton_append]

end Run

end Parser

def Parser.Clauses.query (found : Parser.Clauses) (result : Tree) : Tree :=
  .node "QUERY" "query" 0 (.node "RESULT" "" 0 [result] :: found.parts)

theorem ParserState.regular_start (text : String)
    : ((ParserState.start []).reopen text).advance.Regular none :=
  .advance (by simp [start, reopen]) (by simp [start, reopen]) (by simp [start, reopen]) (by simp)

theorem ParserState.parts_start (text : String)
    : ((ParserState.start []).reopen text).advance.parts = [] :=
  (advance_kept _).2.2.1

variable {scope : Scope} {text : String} {reading : Reading}

/-- Every query that can be read has been run through. -/
theorem Reading.exists_run (read : Reading.ofText scope text = .ok reading)
    : ∃ result s₁ found s₂, Parser.Run scope ((ParserState.start []).reopen text).advance result s₁
        found s₂ reading.stop ∧ reading.tree = found.query result := by
  unfold Reading.ofText at read
  split at read
  next stop given =>
    cases read
    obtain ⟨result, s₁, found, s₂, run⟩ := Parser.exists_run (ParserState.regular_start text) given
    refine ⟨result, s₁, found, s₂, run, ?_⟩
    change ParserState.tree stop = _
    rw [ParserState.tree, run.parts, ParserState.parts_start, List.nil_append, Parser.Clauses.query]
  next => cases read

/-- The tree of a query that can be read consists of parts of the right shape. -/
theorem Reading.shape (read : Reading.ofText scope text = .ok reading)
    : ∃ parts, reading.tree = .node "QUERY" "query" 0 parts ∧ ∀ t ∈ parts, IsPart t := by
  obtain ⟨result, s₁, found, s₂, run, tree⟩ := Reading.exists_run read
  exact ⟨_, tree, List.forall_mem_cons.mpr ⟨run.isResult.1, run.shaped.isPart⟩⟩

end ProgramQuery.Query

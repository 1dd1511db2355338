import ProgramQuery.Proofs.Query.Steps

/-! The parser on the conditions of a query: relations, patterns and attributes. -/

namespace ProgramQuery.Query.Parser

open Text

variable {scope : Scope} {last : Option Token} {frame : Frame} {q : Query}

section Relations

variable {more : List Token}

theorem referenceTree_text (r : Reference) : (q.referenceTree r).text? = some r.text := by
  cases r <;> rfl

theorem referenceTree_label (r : Reference) : (q.referenceTree r).label?.isNone = false := by
  cases r <;> rfl

/-- The two arguments of a condition are taken, whatever comes after them. -/
def TakesArguments (scope : Scope) (q : Query) (frame : Frame) (arguments : Parser (List Tree))
    (first second : Reference)
    : Prop :=
  ∀ last more, Takes scope arguments last
    (frame, first.token :: TokenKind.comma.token :: second.token :: more)
    [q.referenceTree first, q.referenceTree second] none (frame, more)

theorem takes_alikeArguments {reference : Parser Tree} {first second : Reference} {reflexive : Bool}
    (readsFirst : ∀ {last more}, Takes scope reference last (frame, first.token :: more)
      (q.referenceTree first) none (frame, more))
    (readsSecond : ∀ {last more}, Takes scope reference last (frame, second.token :: more)
      (q.referenceTree second) none (frame, more))
    (differ : reflexive = true ∨ first.Differ second)
    : TakesArguments scope q frame (alikeArguments reference reflexive) first second := by
  intro last more
  refine readsFirst.bind (takes_expect.bind (readsSecond.bind ?_))
  have fine : (!reflexive && (q.referenceTree first).text? == (q.referenceTree second).text?
      && (q.referenceTree second).text? != some "_") = false := by
    rw [referenceTree_text, referenceTree_text]
    rcases differ with rfl | other | rfl
    · simp
    · simp [other]
    · simp [Reference.text]
  simp only [fine, Bool.false_eq_true, if_false]
  exact .pure

theorem takes_effectArguments (holds : Holds q frame) {first second : Reference}
    (place : q.FitsLine scope first ∨ q.FitsProcedure scope first)
    (fits : q.FitsVariable scope second)
    : TakesArguments scope q frame effectArguments first second := by
  intro last more
  have rest {reference : Parser Tree}
      (reads : Takes scope reference last
        (frame, first.token :: TokenKind.comma.token :: second.token :: more)
        (q.referenceTree first) none (frame, TokenKind.comma.token :: second.token :: more))
      : Takes scope (do
        let first ← reference
        expect .comma
        let second ← varRef
        return [first, second]) last
        (frame, first.token :: TokenKind.comma.token :: second.token :: more)
        [q.referenceTree first, q.referenceTree second] none (frame, more) :=
    reads.bind (takes_expect.bind ((takes_varRef holds fits).bind .pure))
  refine takes_peek.bind ?_
  cases first with
  | synonym x =>
    have typed {type : EntityType} (found : q.typeOf? x = some type) {s : ParserState}
        (here : s.At last
          (frame, synonymToken x :: TokenKind.comma.token :: second.token :: more))
        : Takes scope (declaredType (plainText s.next)) last
          (frame, synonymToken x :: TokenKind.comma.token :: second.token :: more)
          (some type.label) last
          (frame, synonymToken x :: TokenKind.comma.token :: second.token :: more) := by
      have name := here.coming.plainText_eq.trans (trim_of_isSynonym (holds.synonyms x type found))
      rw [name]
      exact takes_declaredType (holds.declared x type found)
    refine .get fun s here => ?_
    rcases place with line | procedure
    · have line' := line
      obtain ⟨type, found, numbered⟩ := line
      refine (typed found here).bind ?_
      have noProcedure : ¬ some type.label = some "PROCEDURE" := by
        cases type <;> first | decide | cases numbered
      rw [if_neg noProcedure]
      exact rest (takes_stmtRef holds line')
    · refine (typed procedure here).bind ?_
      exact rest (takes_procRef holds procedure)
  | anything => exact rest (takes_procRef holds trivial)
  | line digits =>
    rcases place with line | procedure
    · exact rest (takes_stmtRef holds line)
    · cases procedure
  | name x =>
    rcases place with line | procedure
    · cases line
    · exact rest (takes_procRef holds procedure)

section Arguments

variable {relation : RelationName} {first second : Reference} {arguments : Parser (List Tree)}
  (reads : TakesArguments scope q frame arguments first second)
include reads

theorem takes_alike
    : Takes scope (do
        expectTitle relation.title
        expect .openParenthesis
        let arguments ← arguments
        expect .closeParenthesis
        return .node relation.title "" 0 arguments) last
        (frame, RelationCondition.tokens ⟨relation, first, second⟩ ++ more)
        (q.relationTree ⟨relation, first, second⟩) none (frame, more) :=
  takes_expectTitle.bind (takes_expect.bind ((reads _ _).bind (takes_expect.bind Takes.pure.forget)))

theorem takes_effect
    : Takes scope (do
        expectTitle relation.title
        expect .openParenthesis
        let arguments ← arguments
        expect .closeParenthesis
        if arguments.any (·.label?.isNone) then noAnswer
        return .node relation.title "" 0 arguments) last
        (frame, RelationCondition.tokens ⟨relation, first, second⟩ ++ more)
        (q.relationTree ⟨relation, first, second⟩) none (frame, more) := by
  refine takes_expectTitle.bind (takes_expect.bind ((reads _ _).bind (takes_expect.bind ?_)))
  simp only [List.any_cons, List.any_nil, referenceTree_label, Bool.or_false, Bool.false_eq_true,
    if_false]
  exact Takes.pure.forget

end Arguments

theorem takes_relRef (holds : Holds q frame) {c : RelationCondition} (accepted : c.Accepted scope q)
    : Takes scope relRef last (frame, c.tokens ++ more) (q.relationTree c) none (frame, more) := by
  refine takes_peek.bind ?_
  obtain ⟨relation, first, second⟩ := c
  have lines {reflexive : Bool} (fits : q.FitsLine scope first ∧ q.FitsLine scope second)
      (differ : reflexive = true ∨ first.Differ second)
      : TakesArguments scope q frame (alikeArguments stmtRef reflexive) first second :=
    takes_alikeArguments (takes_stmtRef holds fits.1) (takes_stmtRef holds fits.2) differ
  have procedures (fits : q.FitsProcedure scope first ∧ q.FitsProcedure scope second)
      (differ : first.Differ second)
      : TakesArguments scope q frame (alikeArguments procRef false) first second :=
    takes_alikeArguments (takes_procRef holds fits.1) (takes_procRef holds fits.2) (.inr differ)
  cases relation with
  | parent => exact takes_alike (lines ⟨accepted.1, accepted.2.1⟩ (.inr accepted.2.2))
  | parentStar => exact takes_alike (lines ⟨accepted.1, accepted.2.1⟩ (.inr accepted.2.2))
  | follows => exact takes_alike (lines ⟨accepted.1, accepted.2.1⟩ (.inr accepted.2.2))
  | followsStar => exact takes_alike (lines ⟨accepted.1, accepted.2.1⟩ (.inr accepted.2.2))
  | calls => exact takes_alike (procedures ⟨accepted.1, accepted.2.1⟩ accepted.2.2)
  | callsStar => exact takes_alike (procedures ⟨accepted.1, accepted.2.1⟩ accepted.2.2)
  | next => exact takes_alike (lines accepted (.inl rfl))
  | nextStar => exact takes_alike (lines accepted (.inl rfl))
  | modifies => exact takes_effect (takes_effectArguments holds accepted.1 accepted.2)
  | modifiesStar => exact takes_effect (takes_effectArguments holds accepted.1 accepted.2)
  | uses => exact takes_effect (takes_effectArguments holds accepted.1 accepted.2)
  | usesStar => exact takes_effect (takes_effectArguments holds accepted.1 accepted.2)

end Relations

def signToken (op : Operator) : Token :=
  tokenOf op.kind.token

/-- An expression whose operator is on the level in question stands without parentheses. -/
theorem exprTokens_binary (op : Operator) (left right : Expr)
    : exprTokens (.binary op left right) op.level
      = exprTokens left op.level ++ signToken op :: exprTokens right (op.level + 1) := by
  simp only [exprTokens, Expr.tokens, Nat.lt_irrefl, if_false, List.map_append, List.map_cons]
  rfl

theorem exprTokens_succ {op : Operator} {level : Nat} (other : op.level ≠ level) (left right : Expr)
    : exprTokens (.binary op left right) level = exprTokens (.binary op left right) (level + 1) := by
  rw [exprTokens, exprTokens, Expr.tokens_succ other]

theorem spine_lt_exprTokens (level : Nat) (e : Expr) : e.spine level < (exprTokens e level).length := by
  rw [exprTokens, List.length_map]
  exact e.spine_lt level

section Chains

variable {isSign : TokenKind → Bool} {operand : Parser Tree} {level : Nat}
  {before middle more after : List Token}

theorem takes_chain_end (stop : ∀ t ∈ more.head?, isSign t.kind = false) (fuel : Nat) (left : Tree)
    : Takes scope (chain isSign operand (fuel + 1) left) last (frame, more) left last (frame, more) := by
  have ended : (more.head?.map (·.kind)).any isSign = false := by
    rw [Option.any_map, Option.any_eq_false]
    simpa using stop
  refine takes_look.bind ?_
  rw [ended]
  exact .pure

variable (signs : ∀ op : Operator, op.level = level → isSign (signToken op).kind = true)
  {fuel : Nat} {tree : Tree}
include signs

theorem takes_chain_step {op : Operator} (same : op.level = level) {left right : Expr}
    (reads : ∀ {last}, Takes scope operand last (frame, before) (right.toTree 0) none (frame, middle))
    (goesOn : Takes scope (chain isSign operand fuel ((Expr.binary op left right).toTree 0)) none
      (frame, middle) tree none (frame, after))
    : Takes scope (chain isSign operand (fuel + 1) (left.toTree 0)) last
        (frame, signToken op :: before) tree none (frame, after) := by
  refine takes_peek.bind ?_
  have known : (some (signToken op).kind).any isSign = true := signs op same
  rw [known, if_pos rfl]
  refine takes_shift.bind ?_
  have leaf {frame : Frame} {tokens : List Token}
      : Takes scope (takenLeaf plainText) (some (signToken op)) (frame, tokens)
        (.leaf op.label op.symbol) (some (signToken op)) (frame, tokens) := by
    have text : trim (signToken op).text = op.symbol := by cases op <;> rfl
    have title : (signToken op).kind.title = op.label := by cases op <;> rfl
    rw [← title]
    exact takes_takenLeaf fun s here => here.taken.plainText_eq.trans text
  exact leaf.bind (reads.bind goesOn)

variable {bound : Nat} {good : List Token → Prop}
  (operands : ∀ e, IsSpelled e → ∀ {last more}, (exprTokens e (level + 1)).length ≤ bound →
    good more →
    Takes scope operand last (frame, exprTokens e (level + 1) ++ more) (e.toTree 0) none (frame, more))
  (between : ∀ op : Operator, op.level = level → ∀ more, good (signToken op :: more))
include operands between

/-- When the operands of one level are read and chained, the chain gets to the point where it has the
whole expression, by induction over the expression along its left operands. -/
theorem takes_chain (e : Expr) (spelled : IsSpelled e)
    (short : (exprTokens e level).length ≤ bound) (fine : good more)
    (goesOn : Takes scope (chain isSign operand fuel (e.toTree 0)) none (frame, more) tree none
      (frame, after))
    : Takes scope (operand >>= chain isSign operand (fuel + e.spine level)) last
        (frame, exprTokens e level ++ more) tree none (frame, after) := by
  induction e generalizing fuel more with
  | name x => exact (operands (.name x) spelled short fine).bind goesOn
  | literal digits => exact (operands (.literal digits) spelled short fine).bind goesOn
  | binary op left right ih _ =>
    by_cases same : op.level = level
    · subst same
      obtain ⟨spelledLeft, spelledRight⟩ := spelled.operands
      rw [exprTokens_binary, List.length_append, List.length_cons] at short
      simp only [exprTokens_binary, List.append_assoc, List.cons_append, Expr.spine, if_true,
        ← Nat.add_assoc, Nat.add_right_comm fuel _ 1]
      refine ih spelledLeft (by omega) (between op rfl _) ?_
      exact takes_chain_step signs rfl (operands right spelledRight (by omega) fine) goesOn
    · rw [exprTokens_succ same] at short ⊢
      simp only [Expr.spine, same, if_false, Nat.add_zero]
      exact (operands _ spelled short fine).bind goesOn

theorem takes_operands (e : Expr) (spelled : IsSpelled e)
    (short : (exprTokens e level).length ≤ bound) (enough : e.spine level < fuel) (fine : good more)
    (stop : ∀ t ∈ more.head?, isSign t.kind = false)
    : Takes scope (operand >>= chain isSign operand fuel) last (frame, exprTokens e level ++ more)
        (e.toTree 0) none (frame, more) := by
  obtain ⟨spare, rfl⟩ : ∃ spare, fuel = spare + 1 + e.spine level :=
    ⟨fuel - 1 - e.spine level, by omega⟩
  exact takes_chain signs operands between e spelled short fine (takes_chain_end stop spare _)

end Chains

section Expressions

variable {more : List Token}

theorem takes_factorWith {inner : Parser Tree} {bound : Nat}
    (inside : ∀ e, IsSpelled e → ∀ {last more}, (exprTokens e 0).length < bound →
      Takes scope inner last (frame, exprTokens e 0 ++ TokenKind.closeParenthesis.token :: more)
        (e.toTree 0) none (frame, TokenKind.closeParenthesis.token :: more))
    (e : Expr) (spelled : IsSpelled e) (short : (exprTokens e 2).length ≤ bound)
    : Takes scope (factorWith inner) last (frame, exprTokens e 2 ++ more) (e.toTree 0) none
        (frame, more) := by
  cases e with
  | name x =>
    refine takes_peek.bind (takes_shift.bind (.get fun s here => ?_))
    have name : plainText s.prev = x :=
      here.taken.plainText_eq.trans (trim_of_isSynonym (spelled.names x (by simp [Expr.names])))
    rw [name]
    exact Takes.pure.forget
  | literal digits =>
    have plain := trim_of_isNumeral (spelled.literals digits (by simp [Expr.literals]))
    refine takes_peek.bind (takes_shift.bind (takes_takenLeaf fun s here => ?_).forget)
    exact here.taken.plainText_eq.trans plain
  | binary op left right =>
    have low : op.level < 2 := by cases op <;> decide
    have bare : exprTokens (.binary op left right) 2
        = TokenKind.openParenthesis.token
          :: (exprTokens (.binary op left right) 0 ++ [TokenKind.closeParenthesis.token]) := by
      simp only [exprTokens, Expr.tokens, low, if_true, Nat.not_lt_zero, if_false, List.map_cons,
        List.map_append, List.map_nil]
      rfl
    rw [bare] at short ⊢
    simp only [List.length_cons, List.length_append, List.length_nil] at short
    rw [List.cons_append, List.append_assoc, List.singleton_append]
    exact takes_peek.bind (takes_shift.bind ((inside _ spelled (by omega)).bind
      (takes_expect.bind Takes.pure.forget)))

def Closes (more : List Token) : Prop :=
  ∀ t ∈ more.head?, isSumSign t.kind = false ∧ isProductSign t.kind = false

theorem takes_expressionWithin (fuel : Nat) (e : Expr) (spelled : IsSpelled e)
    (enough : (exprTokens e 0).length < fuel) (closes : Closes more)
    : Takes scope (expressionWithin fuel) last (frame, exprTokens e 0 ++ more) (e.toTree 0) none
        (frame, more) := by
  induction fuel generalizing e last more with
  | zero => omega
  | succ fuel ih =>
    have factors (e : Expr) (spelled : IsSpelled e) {last : Option Token} {more : List Token}
        (short : (exprTokens e 2).length ≤ fuel) (_ : True)
        : Takes scope (factorWith (expressionWithin fuel)) last (frame, exprTokens e 2 ++ more)
          (e.toTree 0) none (frame, more) := by
      refine takes_factorWith (fun e spelled _ _ short => ih e spelled short ?_) e spelled short
      simp [Closes, TokenKind.token, isSumSign, isProductSign]
    have terms (e : Expr) (spelled : IsSpelled e) {last : Option Token} {more : List Token}
        (short : (exprTokens e 1).length ≤ fuel)
        (stop : ∀ t ∈ more.head?, isProductSign t.kind = false)
        : Takes scope (termWith fuel (expressionWithin fuel)) last (frame, exprTokens e 1 ++ more)
          (e.toTree 0) none (frame, more) := by
      refine takes_operands ?_ factors (fun _ _ _ => trivial) e spelled short ?_ trivial stop
      · intro op product
        cases op <;> first | rfl | cases product
      · exact Nat.lt_of_lt_of_le (spine_lt_exprTokens 1 e) short
    have short : (exprTokens e 0).length ≤ fuel := by omega
    refine takes_operands ?_ terms ?_ e spelled short ?_ (fun t member => (closes t member).2)
      fun t member => (closes t member).1
    · intro op sum
      cases op <;> first | rfl | cases sum
    · intro op sum more t member
      obtain rfl : signToken op = t := by simpa using member
      cases op <;> first | rfl | cases sum
    · exact Nat.lt_of_lt_of_le (spine_lt_exprTokens 0 e) short

theorem takes_expression (e : Expr) (spelled : IsSpelled e) (closes : Closes more)
    : Takes scope expression last (frame, exprTokens e 0 ++ more) (e.toTree 0) none
        (frame, more) := by
  refine .of_budget fun fuel enough => takes_expressionWithin fuel e spelled ?_ closes
  rw [List.length_append] at enough
  omega

/-- A quoted name is an expression by itself. -/
theorem takes_expression_name {x : String} (quotable : isQuotable x = true) (closes : Closes more)
    : Takes scope expression last (frame, ⟨.quotedName, inQuotes x⟩ :: more) (.leaf "NAME" x) none
        (frame, more) := by
  refine .of_budget fun fuel enough => ?_
  obtain ⟨fuel, rfl⟩ : ∃ spare, fuel = spare + 2 := ⟨fuel - 2, by omega⟩
  have factor {inner : Parser Tree}
      : Takes scope (factorWith inner) last (frame, ⟨.quotedName, inQuotes x⟩ :: more)
        (.leaf "NAME" x) none (frame, more) := by
    refine takes_peek.bind (takes_shift.bind (.get fun s here => ?_))
    have plain : trim x = x := trim_of_solid fun c member => (isQuotable_solid quotable c member).1
    rw [here.taken.without_eq (by decide), without_inQuotes quotable, plain]
    exact Takes.pure.forget
  have term : Takes scope (termWith (fuel + 1) (expressionWithin (fuel + 1))) last
      (frame, ⟨.quotedName, inQuotes x⟩ :: more) (.leaf "NAME" x) none (frame, more) :=
    factor.bind (takes_chain_end (fun t member => (closes t member).2) fuel _)
  exact term.bind (takes_chain_end (fun t member => (closes t member).1) fuel _)

end Expressions

section Patterns

variable {more : List Token}

/-- Expressions in quotes are read in two ways: a name together with its quotes, and any other
expression between them. -/
theorem takes_rightHandSide {value : RightSide} (accepted : value.Accepted)
    : Takes scope rightHandSide last
        (frame, value.tokens ++ TokenKind.closeParenthesis.token :: more) value.tree none
        (frame, TokenKind.closeParenthesis.token :: more) := by
  have closes {kind : TokenKind} {more : List Token} (noSign : isOperator kind = false)
      : Closes (kind.token :: more) := by
    intro t member
    obtain rfl : kind.token = t := by simpa using member
    change isSumSign kind = false ∧ isProductSign kind = false
    cases kind <;> first | exact ⟨rfl, rfl⟩ | cases noSign
  have between {e : Expr} (spelled : IsSpelled e) {last : Option Token} {more : List Token}
      : Takes scope (do
        expect .quote
        let e ← expression
        expect .quote
        return e) last
        (frame, TokenKind.quote.token :: (exprTokens e 0 ++ TokenKind.quote.token :: more))
        (e.toTree 0) none (frame, more) :=
    takes_expect.bind ((takes_expression e spelled (closes rfl)).bind
      (takes_expect.bind Takes.pure.forget))
  cases value with
  | anything =>
    refine takes_peek.bind (takes_shift.bind ?_)
    exact (takes_takenLeaf fun s here => here.taken.plainText_eq).bind
      (takes_peek.bind Takes.pure.forget)
  | whole e =>
    rcases accepted.cases with ⟨x, rfl, quotable⟩ | ⟨-, spelled, tokens⟩
    · exact takes_peek.bind (takes_expression_name quotable (closes rfl))
    · rw [RightSide.tokens, tokens, List.cons_append, List.append_assoc, List.singleton_append]
      exact takes_peek.bind (between spelled)
  | part e =>
    have finish {last : Option Token}
        : Takes scope (do
          expect .everything
          return (Tree.leaf "EVERYTHING" "_").withChildren [e.toTree 0]) last
          (frame, TokenKind.everything.token :: TokenKind.closeParenthesis.token :: more)
          (RightSide.part e).tree none (frame, TokenKind.closeParenthesis.token :: more) :=
      takes_expect.bind Takes.pure.forget
    rw [RightSide.tokens, List.cons_append, List.append_assoc, List.singleton_append]
    refine takes_peek.bind (takes_shift.bind ((takes_takenLeaf fun s here => here.taken.plainText_eq).bind
      ?_))
    rcases accepted.cases with ⟨x, rfl, quotable⟩ | ⟨-, spelled, tokens⟩
    · exact takes_peek.bind ((takes_expression_name quotable (closes rfl)).bind finish)
    · rw [tokens, List.cons_append, List.append_assoc, List.singleton_append]
      exact takes_peek.bind ((between spelled).bind finish)

/-- A pattern whose first argument has been read is put together. -/
theorem takes_patternNode {title type x : String} {r : Reference} {others : List Tree}
    : Takes scope (patternNode title type x (q.referenceTree r :: others)) last (frame, more)
        (.node title "" 0 (.leaf type x :: q.referenceTree r :: others)) none (frame, more) := by
  have present : (q.referenceTree r :: others).head?.any (·.label?.isNone) = false :=
    referenceTree_label r
  unfold patternNode
  simp only [present, Bool.false_eq_true, if_false]
  exact Takes.pure.forget

theorem takes_everything {failure : Failure}
    : Takes scope (everything failure) last (frame, TokenKind.everything.token :: more)
        (.leaf "EVERYTHING" "_") none (frame, more) :=
  takes_peek.bind (takes_shift.bind (takes_takenLeaf fun _ here => here.taken.plainText_eq).forget)

theorem takes_patternCond (holds : Holds q frame) {c : PatternCondition}
    (accepted : c.Accepted scope q)
    : Takes scope patternCond last (frame, c.tokens ++ more) (q.patternTree c) none (frame, more) := by
  have named {x : String} {type : EntityType} (found : q.typeOf? x = some type) {s : ParserState}
      {place : Frame × List Token} (here : s.At (some (synonymToken x)) place)
      : plainText s.prev = x :=
    here.taken.plainText_eq.trans (trim_of_isSynonym (holds.synonyms x type found))
  cases c with
  | assignment x target value =>
    obtain ⟨found, fits, value⟩ := accepted
    rw [patternTree, synonymTree_eq found]
    simp only [PatternCondition.tokens, inParentheses, separated, id, List.cons_append,
      List.nil_append, List.append_assoc]
    refine takes_peek.bind ((holds.typed found).bind (.get fun s here => ?_))
    rw [named found here]
    exact takes_expect.bind ((takes_varRef holds fits).bind (takes_expect.bind
      ((takes_rightHandSide value).bind (takes_expect.bind takes_patternNode))))
  | branch x control =>
    obtain ⟨found, fits⟩ := accepted
    rw [patternTree, synonymTree_eq found]
    refine takes_peek.bind ((holds.typed found).bind (.get fun s here => ?_))
    rw [named found here]
    exact takes_expect.bind ((takes_varRef holds fits).bind (takes_expect.bind
      (takes_everything.bind (takes_expect.bind (takes_everything.bind
      (takes_expect.bind takes_patternNode))))))
  | loop x control =>
    obtain ⟨found, fits⟩ := accepted
    rw [patternTree, synonymTree_eq found]
    refine takes_peek.bind ((holds.typed found).bind (.get fun s here => ?_))
    rw [named found here]
    exact takes_expect.bind ((takes_varRef holds fits).bind (takes_expect.bind
      (takes_everything.bind (takes_expect.bind takes_patternNode))))

end Patterns

section Attributes

variable {more : List Token} {type : EntityType} {a : Attribute} {c : Comparand}

theorem takes_hasAttribute (has : type.has a = true)
    : Takes scope (hasAttribute type.label) last (frame, a.token :: more) true last
        (frame, a.token :: more) := by
  refine .get fun s here => ?_
  have word : trim (without '.' (rawText s.next)) = a.word := by
    rw [here.coming.without_eq (by decide)]
    cases a <;> rfl
  rw [word]
  cases type <;> cases a <;> first | exact .pure | cases has

/-- Program lines are compared themselves. -/
theorem takes_hasAttribute_line
    : Takes scope (hasAttribute EntityType.line.label) last
        (frame, TokenKind.equals.token :: more) true last
        (frame, TokenKind.equals.token :: more) := by
  refine .get fun s here => ?_
  rw [here.coming.without_eq (by decide)]
  exact .pure

theorem takes_attributeName
    : Takes scope attributeName last (frame, a.token :: more) a.tree none (frame, more) := by
  refine takes_expect.bind (takes_takenLeaf fun s here => ?_).forget
  rw [here.taken.rawText_eq rfl]
  cases a <;> rfl

theorem takes_attributeValueName
    : Takes scope attributeValueName last (frame, a.token :: more) a.tree none (frame, more) := by
  refine takes_expect.bind (takes_takenLeaf fun s here => ?_).forget
  rw [here.taken.rawText_eq rfl]
  cases a <;> rfl

theorem takes_attributeValue (holds : Holds q frame) {x : String}
    (found : q.typeOf? x = some type) (has : type.has a = true)
    : Takes scope attributeValue last (frame, synonymToken x :: a.token :: more)
        (q.synonymTree x [a.tree]) none (frame, more) := by
  rw [synonymTree_eq found]
  exact (holds.typed found).bind ((takes_hasAttribute has).bind
    (takes_attributeValueName.bind .pure))

theorem takes_comparand (holds : Holds q frame)
    (accepted : c.Accepted scope q type)
    : Takes scope comparand last (frame, TokenKind.equals.token :: (c.tokens ++ more))
        (q.comparandTree c) none (frame, more) := by
  have leaf {s : ParserState} {t : Token} {tokens : List Token} {text : String}
      {last last' : Option Token} {place : Frame × List Token} (here : s.At last (frame, t :: tokens))
      (plain : trim (without '"' (without '.' t.text)) = text)
      : Takes scope
        (pure (Tree.leaf (titleOf s.next) (trim (without '"' (without '.' (rawText s.next))))))
        last' place (Tree.leaf t.kind.title text) none place := by
    rw [here.coming.titleOf_eq, here.coming.without_without_eq (by decide) (by decide), plain]
    exact Takes.pure.forget
  cases c with
  | name x =>
    have plain : trim (without '"' (without '.' (inQuotes x))) = x := by
      have noDot : '.' ∉ (inQuotes x).toList := by
        intro member
        simp only [inQuotes, String.toList_append, List.mem_append] at member
        rcases member with (quote | inside) | quote
        · exact absurd quote (by decide)
        · exact (isQuotable_solid accepted.1 _ inside).2.2 rfl
        · exact absurd quote (by decide)
      rw [without_of_not_mem noDot, without_inQuotes accepted.1]
      exact trim_of_solid fun c member => (isQuotable_solid accepted.1 c member).1
    exact takes_expect.bind (takes_peek.bind (.get fun s here =>
      takes_peek.bind (takes_shift.bind (leaf here plain))))
  | line digits =>
    have solid := trim_of_isNumeral accepted.1
    have plain : trim (without '"' (without '.' digits)) = digits := by
      obtain ⟨c, cs, heading, areDigits⟩ := isNumeral_iff.mp accepted.1
      have absent {d : Char} (other : isDigit d = false) : d ∉ digits.toList := by
        intro member
        rw [heading] at member
        rw [areDigits d member] at other
        cases other
      rw [without_of_not_mem (absent (by decide)), without_of_not_mem (absent (by decide)), solid]
    exact takes_expect.bind (takes_peek.bind (.get fun s here =>
      takes_peek.bind ((takes_lineNumber accepted fun s here => here.coming.readNumeral_eq).bind
      (leaf here plain))))
  | synonym x a =>
    obtain ⟨type', found, has⟩ := accepted
    refine takes_expect.bind (takes_peek.bind (.get fun s here => takes_peek.bind ?_))
    exact takes_attributeValue holds found has

/-- What is compared has passed the check of the grammar. -/
theorem takes_checkComparand (accepted : c.Accepted scope q type)
    : Takes scope (checkComparand type.label (q.comparandTree c)) last (frame, more) () last
        (frame, more) := by
  cases c with
  | name x =>
    obtain ⟨quotable, procedures, variableNames⟩ := accepted
    have plain : trim x = x := trim_of_solid fun c member => (isQuotable_solid quotable c member).1
    have inProcedures (asked : type = .procedure ∨ type = .call)
        : scope.procedures.contains (trim x) = true := by
      rw [plain]
      exact List.contains_iff_mem.mpr (procedures asked)
    have inVariables (asked : type = .var) : scope.variableNames.contains x = true :=
      List.contains_iff_mem.mpr (variableNames asked)
    cases type with
    | procedure =>
      refine .read ?_
      simp only [inProcedures (.inl rfl), Bool.not_true, Bool.false_eq_true, if_false]
      exact .pure
    | call =>
      refine .read ?_
      simp only [inProcedures (.inr rfl), Bool.not_true, Bool.false_eq_true, if_false]
      exact .pure
    | var =>
      refine .read ?_
      simp only [inVariables rfl, Bool.not_true, Bool.false_eq_true, if_false]
      exact .pure
    | _ => exact .pure
  | line digits =>
    obtain ⟨-, n, value, small⟩ := accepted
    have given : Takes scope (numeral digits) last (frame, more) n last (frame, more) := by
      rw [numeral, value]
      exact .pure
    refine given.bind (.read ?_)
    simp only [small, decide_true, Bool.not_true, Bool.false_eq_true, if_false]
    exact .pure
  | synonym x a =>
    obtain ⟨type', found, -⟩ := accepted
    rw [comparandTree, synonymTree_eq found]
    cases type' <;> exact .pure

theorem takes_attrCond (holds : Holds q frame) {c : AttributeCondition}
    (accepted : c.Accepted scope q)
    : Takes scope attrCond last (frame, c.tokens ++ more) (q.attributeTree c) none
        (frame, more) := by
  obtain ⟨type, found, own, comparand⟩ := accepted
  obtain ⟨x, attr, compared⟩ := c
  rw [attributeTree, synonymTree_eq found]
  cases attr with
  | none =>
    obtain rfl : type = .line := own
    exact (holds.typed found).bind (takes_hasAttribute_line.bind
      ((takes_comparand holds comparand).bind ((takes_checkComparand comparand).bind .pure)))
  | some a =>
    have listed : type.label ≠ "PROG_LINE" := by
      cases type <;> first | decide | cases a <;> cases own
    refine (holds.typed found).bind ((takes_hasAttribute own).bind ?_)
    simp only [listed, Bool.not_true, Bool.false_eq_true, if_false]
    have named {last : Option Token} {more : List Token}
        : Takes scope (do return [← attributeName]) last (frame, a.token :: more) [a.tree] none
          (frame, more) :=
      takes_attributeName.bind .pure
    refine named.bind ?_
    exact (takes_comparand holds comparand).bind ((takes_checkComparand comparand).bind .pure)

end Attributes

end ProgramQuery.Query.Parser

import ProgramQuery.Proofs.Program.Grammar
import ProgramQuery.Proofs.Program.Lookahead
import ProgramQuery.Proofs.Program.Numbering

/-! What the parser makes of any text. It reads tokens that the grammar allows and counts their
statements, or it stops for one of two reasons: a token that does not fit, or an empty body that would
have needed an end. The steps it is given always suffice.
-/

namespace ProgramQuery.Program

open Text

namespace ParserState

variable {s s' s'' : ParserState} {t : Token} {tokens more whole : List Token} {count count' : Nat}

/-- If the parser looks at no token, there is none before it. -/
def Alert (s : ParserState) : Prop :=
  s.next.kind? = none → s.pending = []

theorem alert_advance (s : ParserState) : s.advance.Alert := by
  intro none
  rw [pending_advance]
  cases found : Token.scan s.rest with
  | none => exact tokensIn_of_scan_none found
  | some result => simp [advance, read, found, Lookahead.kind?] at none

/-- From the first state to the second some tokens are taken and some statements are counted. -/
structure Passes (s : ParserState) (tokens : List Token) (count : Nat) (s' : ParserState) : Prop where
  pending : s.pending = tokens ++ s'.pending
  line : s'.line = s.line + count
  alert : s.Alert → s'.Alert

theorem Passes.refl (s : ParserState) : s.Passes [] 0 s :=
  ⟨rfl, rfl, id⟩

theorem Passes.trans (first : s.Passes tokens count s') (second : s'.Passes more count' s'')
    : s.Passes (tokens ++ more) (count + count') s'' := by
  refine ⟨?_, ?_, second.alert ∘ first.alert⟩
  · rw [first.pending, second.pending, List.append_assoc]
  · rw [second.line, first.line, Nat.add_assoc]

theorem passes_shifted (next : s.next = .token t) : s.Passes [t] 0 s.shifted := by
  have ahead : s.shifted.pending = tokensIn s.rest := s.pending_advance
  refine ⟨?_, s.line_shifted, fun _ => s.alert_advance⟩
  rw [ahead, ParserState.pending, next]
  rfl

theorem passes_counted (s : ParserState) : s.Passes [] 1 { s with line := s.line + 1 } :=
  ⟨rfl, rfl, id⟩

theorem Passes.length (passes : s.Passes tokens count s')
    : s.pending.length = tokens.length + s'.pending.length := by
  rw [passes.pending, List.length_append]

theorem Passes.length_lt (passes : s.Passes tokens count s') (some : tokens ≠ [])
    : s'.pending.length < s.pending.length := by
  have pos := List.length_pos_iff.mpr some
  have lengths := passes.length
  omega

theorem Passes.suffix (passes : s.Passes tokens count s') (inside : s.pending <:+ whole)
    : s'.pending <:+ whole :=
  (List.suffix_append tokens _).trans (passes.pending ▸ inside)

theorem Passes.part (passes : s.Passes tokens count s') (inside : s.pending <:+ whole)
    : tokens <:+: whole :=
  (List.prefix_append tokens _).isInfix.trans (passes.pending ▸ inside).isInfix

end ParserState

/-- What may be wrong with a text of some tokens. -/
def Refused (whole : List Token) : Failure → Prop
  | .rejected => True
  | .emptyList => Hollow whole
  | _ => False

namespace Parser

open ParserState

variable {α β : Type} {m : Parser α} {whole : List Token} {s s' : ParserState}
  {post : α → ParserState → Prop} {fuel : Nat} {inner : Parser Expr}

/-- The parser gives a value of which something holds, or refuses a text of some tokens. -/
def Gives (whole : List Token) (m : Parser α) (s : ParserState) (post : α → ParserState → Prop)
    : Prop :=
  match m s with
  | .ok a s' => post a s'
  | .error failure _ => Refused whole failure

theorem Gives.of_ok {a : α} (gives : Gives whole m s post) (given : m s = .ok a s') : post a s' := by
  rwa [Gives, given] at gives

theorem Gives.mono {weaker : α → ParserState → Prop} (gives : Gives whole m s post)
    (weaken : ∀ a s', post a s' → weaker a s')
    : Gives whole m s weaker := by
  unfold Gives at gives ⊢
  split at gives
  · exact weaken _ _ gives
  · exact gives

theorem Gives.bind {f : α → Parser β} {then_ : β → ParserState → Prop} (first : Gives whole m s post)
    (second : ∀ a s', post a s' → Gives whole (f a) s' then_)
    : Gives whole (m >>= f) s then_ := by
  unfold Gives at first second ⊢
  simp only [Bind.bind, EStateM.bind]
  cases given : m s with
  | ok a s' =>
    rw [given] at first
    exact second a s' first
  | error failure s' =>
    rw [given] at first
    exact first

/-- Nothing comes after a failure. -/
theorem Gives.throw_bind {failure : Failure} (refused : Refused whole failure) (f : β → Parser α)
    : Gives whole ((MonadExcept.throw failure : Parser β) >>= f) s post :=
  refused

/-- A parser that gives something and then does not look at it. -/
theorem Gives.discard (gives : Gives whole m s post)
    : Gives whole (Functor.discard m) s fun _ s' => ∃ a, post a s' := by
  unfold Gives at gives ⊢
  simp only [Functor.discard, Functor.mapConst, EStateM.map, Function.comp]
  cases given : m s with
  | ok a s' =>
    rw [given] at gives
    exact ⟨a, gives⟩
  | error failure s' =>
    rw [given] at gives
    exact gives

theorem Gives.peek {f : Option TokenKind → Parser α} (gives : Gives whole (f s.next.kind?) s post)
    : Gives whole (peek >>= f) s post :=
  gives

theorem Gives.get {f : ParserState → Parser α} (gives : Gives whole (f s) s post)
    : Gives whole (MonadState.get >>= f) s post :=
  gives

theorem Gives.modify {f : ParserState → ParserState}
    : Gives whole (modify f) s fun _ s' => s' = f s :=
  rfl

/-- A parser that sets its steps by the input that is left. -/
theorem Gives.of_budget {m : Nat → Parser α} (gives : Gives whole (m s.budget) s post)
    : Gives whole (fun s => m s.budget s) s post :=
  gives

theorem gives_shift {kind : TokenKind} (next : s.next.kind? = some kind)
    : Gives whole shift s fun _ s' => ∃ t : Token, t.kind = kind ∧ s.Passes [t] 0 s' := by
  obtain ⟨t, token, kind⟩ := Lookahead.kind?_eq_some.mp next
  exact ⟨t, kind, passes_shifted token⟩

theorem gives_expect (kind : TokenKind)
    : Gives whole (expect kind) s fun text s' =>
        ∃ t : Token, t.kind = kind ∧ t.text = text ∧ s.Passes [t] 0 s' := by
  unfold Gives
  rw [expect_eq]
  by_cases next : s.next.kind? = some kind
  · obtain ⟨t, token, kind⟩ := Lookahead.kind?_eq_some.mp next
    rw [if_pos next]
    exact ⟨t, kind, by rw [token]; rfl, passes_shifted token⟩
  · rw [if_neg next]
    trivial

theorem gives_word (kind : TokenKind)
    : Gives whole (Functor.discard (expect kind)) s fun _ s' =>
        ∃ t : Token, t.kind = kind ∧ s.Passes [t] 0 s' := by
  refine (gives_expect kind).discard.mono ?_
  rintro _ s' ⟨_, t, isKind, -, passes⟩
  exact ⟨t, isKind, passes⟩

/-- An expression of a level is read and no statement is counted. -/
def GivesExpr (whole : List Token) (level : Nat) (m : Parser Expr) (s : ParserState) : Prop :=
  Gives whole m s fun e s' => ∃ used, e.Spelled level used ∧ s.Passes used 0 s'

/-- Operands of the next level are chained from left to right. The induction is on the fuel, and each
turn takes an operator. -/
theorem gives_chain {operator? : TokenKind → Option Operator} {operand : Parser Expr}
    {level bound : Nat} {left : Expr} {before : List Token}
    (operators : ∀ kind op, operator? kind = some op → op.level = level ∧ kind = op.kind)
    (operands : ∀ s : ParserState, s.pending.length ≤ bound → GivesExpr whole (level + 1) operand s)
    (spelled : left.Spelled level before) (fits : s.pending.length ≤ bound)
    (enough : s.pending.length < fuel)
    : Gives whole (chain operator? operand fuel left) s fun e s' =>
        ∃ used, e.Spelled level (before ++ used) ∧ s.Passes used 0 s' := by
  induction fuel generalizing left before s with
  | zero => omega
  | succ fuel ih =>
    refine .peek ?_
    cases found : s.next.kind?.bind operator? with
    | none => exact ⟨[], by rwa [List.append_nil], .refl s⟩
    | some op =>
      obtain ⟨kind, next, known⟩ := Option.bind_eq_some_iff.mp found
      obtain ⟨rfl, isKind⟩ := operators kind op known
      refine (gives_shift next).bind ?_
      rintro _ s₁ ⟨sign, isSign, passes⟩
      have shorter := passes.length_lt (by simp)
      refine (operands s₁ (by omega)).bind ?_
      rintro right s₂ ⟨used, spelledRight, passes'⟩
      have shorter' := passes'.length_lt spelledRight.ne_nil
      refine (ih (.binary (isSign.trans isKind) spelled spelledRight) (by omega)
        (by omega)).mono ?_
      rintro e s₃ ⟨used', spelled', passes''⟩
      refine ⟨sign :: used ++ used', by simpa using spelled', ?_⟩
      exact (passes.trans passes').trans passes''

theorem gives_factorWith {bound : Nat}
    (inside : ∀ s : ParserState, s.pending.length < bound → GivesExpr whole 0 inner s)
    (fits : s.pending.length ≤ bound)
    : GivesExpr whole 2 (factorWith inner) s := by
  refine .peek ?_
  split
  · next next =>
    refine (gives_shift next).bind ?_
    rintro _ s₁ ⟨opening, isOpening, passes⟩
    have shorter := passes.length_lt (by simp)
    refine (inside s₁ (by omega)).bind ?_
    rintro e s₂ ⟨used, spelled, passes'⟩
    refine (gives_word .closeParenthesis).bind ?_
    rintro _ s₃ ⟨closing, isClosing, passes''⟩
    exact ⟨_, .group (by simp [isOpening, isClosing]) spelled, passes.trans (passes'.trans passes'')⟩
  · refine (gives_expect .integer).bind ?_
    rintro _ s₁ ⟨t, isInteger, rfl, passes⟩
    exact ⟨_, .literal isInteger, passes⟩
  · refine (gives_expect .name).bind ?_
    rintro _ s₁ ⟨t, isName, rfl, passes⟩
    exact ⟨_, .name isName, passes⟩
  · trivial

theorem sumOperator?_level (kind : TokenKind) (op : Operator) (known : sumOperator? kind = some op)
    : op.level = 0 ∧ kind = op.kind := by
  cases kind <;> cases known <;> exact ⟨rfl, rfl⟩

theorem productOperator?_level (kind : TokenKind) (op : Operator)
    (known : productOperator? kind = some op)
    : op.level = 1 ∧ kind = op.kind := by
  cases kind <;> cases known
  exact ⟨rfl, rfl⟩

theorem gives_termWith
    (inside : ∀ s : ParserState, s.pending.length < fuel → GivesExpr whole 0 inner s)
    (fits : s.pending.length ≤ fuel)
    : GivesExpr whole 1 (termWith fuel inner) s := by
  have factors (s : ParserState) (fits : s.pending.length ≤ fuel)
      : GivesExpr whole 2 (factorWith inner) s :=
    gives_factorWith inside fits
  refine (factors s fits).bind ?_
  rintro first s₁ ⟨used, spelled, passes⟩
  have shorter := passes.length_lt spelled.ne_nil
  refine (gives_chain productOperator?_level factors spelled.lift (by omega) (by omega)).mono ?_
  rintro e s₂ ⟨used', spelled', passes'⟩
  exact ⟨_, spelled', passes.trans passes'⟩

theorem gives_expressionWithin (enough : s.pending.length < fuel)
    : GivesExpr whole 0 (expressionWithin fuel) s := by
  induction fuel generalizing s with
  | zero => omega
  | succ fuel ih =>
    have terms (s : ParserState) (fits : s.pending.length ≤ fuel)
        : GivesExpr whole 1 (termWith fuel (expressionWithin fuel)) s :=
      gives_termWith (fun _ enough => ih enough) fits
    refine (terms s (by omega)).bind ?_
    rintro first s₁ ⟨used, spelled, passes⟩
    have shorter := passes.length_lt spelled.ne_nil
    refine (gives_chain sumOperator?_level terms spelled.lift (by omega) (by omega)).mono ?_
    rintro e s₂ ⟨used', spelled', passes'⟩
    exact ⟨_, spelled', passes.trans passes'⟩

theorem gives_expression (s : ParserState) : GivesExpr whole 0 expression s := by
  have enough := s.pending_length_le
  exact Gives.of_budget (m := expressionWithin) (gives_expressionWithin (by omega))

/-- A statement is read and its size is counted, of which so much has been counted before. -/
def GivesStmt (whole : List Token) (counted : Nat) (m : Parser Stmt) (s : ParserState) : Prop :=
  Gives whole m s fun a s' => ∃ used count, a.Spelled used ∧ s.Passes used count s'
    ∧ counted + count = a.size

/-- A statement list is read up to a closing bracket. -/
def GivesList (whole : List Token) (m : Parser (List Stmt)) (s : ParserState) : Prop :=
  Gives whole m s fun body s' => ∃ used, Stmt.ListSpelled body used
    ∧ s.Passes used (Stmt.sizes body) s' ∧ s'.next.kind? = some .closeBracket

theorem gives_assignment (s : ParserState) : GivesStmt whole 1 assignment s := by
  refine (gives_expect .name).bind ?_
  rintro _ s₁ ⟨target, isTarget, rfl, passes₁⟩
  refine (gives_word .assign).bind ?_
  rintro _ s₂ ⟨equals, isEquals, passes₂⟩
  refine (gives_expression s₂).bind ?_
  rintro value s₃ ⟨used, spelled, passes₃⟩
  refine (gives_word .semicolon).bind ?_
  rintro _ s₄ ⟨semicolon, isSemicolon, passes₄⟩
  exact ⟨_, _, .assign (by simp [isTarget, isEquals, isSemicolon]) spelled,
    passes₁.trans (passes₂.trans (passes₃.trans passes₄)), rfl⟩

theorem gives_call (s : ParserState) : GivesStmt whole 1 call s := by
  refine (gives_word .callWord).bind ?_
  rintro _ s₁ ⟨word, isWord, passes₁⟩
  refine (gives_expect .name).bind ?_
  rintro _ s₂ ⟨callee, isCallee, rfl, passes₂⟩
  refine (gives_word .semicolon).bind ?_
  rintro _ s₃ ⟨semicolon, isSemicolon, passes₃⟩
  exact ⟨_, _, .call (by simp [isWord, isCallee, isSemicolon]),
    passes₁.trans (passes₂.trans passes₃), rfl⟩

section Lists

variable {lists : Parser (List Stmt)} {bound : Nat}
  (reads : ∀ s : ParserState, s.pending.length + 2 ≤ bound → s.pending <:+ whole →
    GivesList whole lists s)
include reads

theorem gives_loopWith (fits : s.pending.length ≤ bound) (inside : s.pending <:+ whole)
    : GivesStmt whole 1 (loopWith lists) s := by
  refine (gives_word .whileWord).bind ?_
  rintro _ s₁ ⟨word, isWord, passes₁⟩
  refine (gives_expect .name).bind ?_
  rintro _ s₂ ⟨condition, isCondition, rfl, passes₂⟩
  refine (gives_word .openBracket).bind ?_
  rintro _ s₃ ⟨opening, isOpening, passes₃⟩
  have front := passes₁.trans (passes₂.trans passes₃)
  have shorter := front.length
  simp only [List.length_append, List.length_cons, List.length_nil] at shorter
  refine (reads s₃ (by omega) (front.suffix inside)).bind ?_
  rintro body s₄ ⟨used, spelled, passes₄, next⟩
  dsimp only
  split
  next endless =>
    refine .throw_bind ?_ _
    rcases Stmt.hollow_of_not_listEnds body spelled (by simpa using endless) with rfl | hollow
    · -- the closing bracket comes right after the opening one
      cases spelled
      obtain ⟨closing, token, isClosing⟩ := Lookahead.kind?_eq_some.mp next
      have empty : (Stmt.loop condition.text []).Spelled [word, condition, opening, closing] :=
        .loop (by simp [isWord, isCondition, isOpening, isClosing]) .nil
      exact ⟨_, _, empty, rfl, (front.trans (passes₄.trans (passes_shifted token))).part inside⟩
    · exact hollow.mono (passes₄.part (front.suffix inside))
  next =>
    refine (gives_word .closeBracket).bind ?_
    rintro _ s₅ ⟨closing, isClosing, passes₅⟩
    exact ⟨_, _, .loop (by simp [isWord, isCondition, isOpening, isClosing]) spelled,
      front.trans (passes₄.trans passes₅), by simp [Stmt.size]⟩

theorem gives_branchWith (fits : s.pending.length ≤ bound) (inside : s.pending <:+ whole)
    : GivesStmt whole 1 (branchWith lists) s := by
  refine (gives_word .ifWord).bind ?_
  rintro _ s₁ ⟨word, isWord, passes₁⟩
  refine (gives_expect .name).bind ?_
  rintro _ s₂ ⟨condition, isCondition, rfl, passes₂⟩
  refine (gives_word .thenWord).bind ?_
  rintro _ s₃ ⟨thenWord, isThen, passes₃⟩
  refine (gives_word .openBracket).bind ?_
  rintro _ s₄ ⟨opening, isOpening, passes₄⟩
  have front := passes₁.trans (passes₂.trans (passes₃.trans passes₄))
  have shorter := front.length
  simp only [List.length_append, List.length_cons, List.length_nil] at shorter
  refine (reads s₄ (by omega) (front.suffix inside)).bind ?_
  rintro thenBody s₅ ⟨thenTokens, thenSpelled, passes₅, -⟩
  refine (gives_word .closeBracket).bind ?_
  rintro _ s₆ ⟨closing, isClosing, passes₆⟩
  refine (gives_word .elseWord).bind ?_
  rintro _ s₇ ⟨elseWord, isElse, passes₇⟩
  refine (gives_word .openBracket).bind ?_
  rintro _ s₈ ⟨opening', isOpening', passes₈⟩
  have middle := passes₅.trans (passes₆.trans (passes₇.trans passes₈))
  have shorter' := middle.length
  refine (reads s₈ (by omega) (middle.suffix (front.suffix inside))).bind ?_
  rintro elseBody s₉ ⟨elseTokens, elseSpelled, passes₉, -⟩
  refine (gives_word .closeBracket).bind ?_
  rintro _ s₁₀ ⟨closing', isClosing', passes₁₀⟩
  have kinds : [word, condition, thenWord, opening, closing, elseWord, opening', closing'].map Token.kind
      = [.ifWord, .name, .thenWord, .openBracket, .closeBracket, .elseWord, .openBracket,
        .closeBracket] := by
    simp [isWord, isCondition, isThen, isOpening, isClosing, isElse, isOpening', isClosing']
  have passes := front.trans (middle.trans (passes₉.trans passes₁₀))
  exact ⟨_, Stmt.sizes thenBody + Stmt.sizes elseBody, .branch kinds thenSpelled elseSpelled,
    by simpa using passes, by simp [Stmt.size, Nat.add_assoc]⟩

/-- Every statement is counted when it starts. -/
theorem gives_statementWith (fits : s.pending.length ≤ bound) (inside : s.pending <:+ whole)
    : GivesStmt whole 0 (statementWith lists) s := by
  have counts {m : Parser Stmt} (counted : GivesStmt whole 1 m { s with line := s.line + 1 })
      : Gives whole m { s with line := s.line + 1 } fun a s' => ∃ used count, a.Spelled used
          ∧ s.Passes used count s' ∧ 0 + count = a.size := by
    refine counted.mono ?_
    rintro a s' ⟨used, count, spelled, passes, size⟩
    exact ⟨used, _, spelled, (passes_counted s).trans passes, by omega⟩
  refine Gives.modify.bind ?_
  rintro _ _ rfl
  refine .peek ?_
  split
  · exact counts (gives_loopWith reads fits inside)
  · exact counts (gives_call _)
  · exact counts (gives_branchWith reads fits inside)
  · exact counts (gives_assignment _)

end Lists

/-- The induction is on the fuel, and each turn takes a statement. That the statement before has no
end is found only after the next one has been read. -/
theorem gives_statementsFrom {statement : Parser Stmt} {bound : Nat}
    (reads : ∀ s : ParserState, s.pending.length ≤ bound → s.pending <:+ whole →
      GivesStmt whole 0 statement s)
    {before : Option Stmt} (stuck : before.any (!·.ends) = true → Hollow whole)
    (fits : s.pending.length ≤ bound) (inside : s.pending <:+ whole)
    (enough : s.pending.length < fuel)
    : GivesList whole (statementsFrom statement fuel before) s := by
  induction fuel generalizing before s with
  | zero => omega
  | succ fuel ih =>
    refine .peek ?_
    split
    next next => exact ⟨[], .nil, .refl s, next⟩
    next =>
      refine (reads s fits inside).bind ?_
      rintro first s₁ ⟨used, count, spelled, passes, size⟩
      obtain rfl : count = first.size := by omega
      have shorter := passes.length_lt spelled.ne_nil
      dsimp only
      split
      next endless =>
        have refused : Refused whole .emptyList := stuck endless
        exact .throw_bind refused _
      next =>
        have stuck' : (some first).any (!·.ends) = true → Hollow whole := by
          intro endless
          refine (Stmt.hollow_of_not_ends first spelled ?_).mono (passes.part inside)
          simpa using endless
        refine (ih stuck' (by omega) (passes.suffix inside) (by omega)).bind ?_
        rintro rest s₂ ⟨used', spelled', passes', next⟩
        exact ⟨_, .cons spelled spelled', passes.trans passes', next⟩

theorem gives_statementsWithin (enough : s.pending.length + 2 ≤ fuel)
    (inside : s.pending <:+ whole)
    : GivesList whole (statementsWithin fuel) s := by
  induction fuel generalizing s with
  | zero => omega
  | succ fuel ih =>
    have each (s : ParserState) (fits : s.pending.length ≤ fuel) (inside : s.pending <:+ whole)
        : GivesStmt whole 0 (statementWith (statementsWithin fuel)) s :=
      gives_statementWith (fun s enough inside => ih enough inside) fits inside
    exact gives_statementsFrom each (by simp) (by omega) inside (by omega)

theorem gives_statements (inside : s.pending <:+ whole) : GivesList whole statements s :=
  Gives.of_budget (m := statementsWithin) (gives_statementsWithin s.pending_length_le inside)

theorem gives_procedure (inside : s.pending <:+ whole)
    : Gives whole procedure s fun p s' =>
        ∃ used, p.Spelled used ∧ s.Passes used (Stmt.sizes p.body) s' := by
  refine (gives_word .procedureWord).bind ?_
  rintro _ s₁ ⟨word, isWord, passes₁⟩
  refine (gives_expect .name).bind ?_
  rintro _ s₂ ⟨name, isName, rfl, passes₂⟩
  refine (gives_word .openBracket).bind ?_
  rintro _ s₃ ⟨opening, isOpening, passes₃⟩
  have front := passes₁.trans (passes₂.trans passes₃)
  refine (gives_statements (front.suffix inside)).bind ?_
  rintro body s₄ ⟨used, spelled, passes₄, -⟩
  refine (gives_word .closeBracket).bind ?_
  rintro _ s₅ ⟨closing, isClosing, passes₅⟩
  have kinds : [word, name, opening, closing].map Token.kind
      = [.procedureWord, .name, .openBracket, .closeBracket] := by
    simp [isWord, isName, isOpening, isClosing]
  exact ⟨_, .mk kinds spelled, by simpa using front.trans (passes₄.trans passes₅)⟩

theorem gives_procedures (inside : s.pending <:+ whole)
    (enough : s.pending.length < fuel)
    : Gives whole (procedures fuel) s fun list s' =>
        ∃ used, Sequence list used ∧ s.Passes used (Program.size ⟨list⟩) s'
          ∧ s'.next.kind? ≠ some .procedureWord := by
  induction fuel generalizing s with
  | zero => omega
  | succ fuel ih =>
    refine .peek ?_
    split
    next =>
      refine (gives_procedure inside).bind ?_
      rintro first s₁ ⟨used, spelled, passes⟩
      have shorter := passes.length_lt spelled.ne_nil
      refine (ih (passes.suffix inside) (by omega)).bind ?_
      rintro rest s₂ ⟨used', spelled', passes', next⟩
      exact ⟨_, .cons spelled spelled', by simpa [Program.size] using passes.trans passes', next⟩
    next next => exact ⟨[], .nil, .refl s, next⟩

/-- The tokens of a text are those of the procedures that are read, as many statements are counted as
the procedures have, and then comes no further procedure. -/
theorem gives_program (text : String)
    : Gives (tokensIn (ParserState.start text).rest) program (.start text) fun p stop =>
        ∃ used, Sequence p.procedures used
          ∧ tokensIn (ParserState.start text).rest = used ++ stop.pending
          ∧ stop.line = p.size
          ∧ ∀ t ∈ stop.pending.head?, t.kind ≠ .procedureWord := by
  refine Gives.modify.bind ?_
  rintro _ _ rfl
  have tokens := (ParserState.start text).pending_advance
  have enough := (ParserState.start text).advance.pending_length_le
  have inside : (ParserState.start text).advance.pending <:+ tokensIn (ParserState.start text).rest :=
    tokens ▸ List.suffix_refl _
  refine .get ((gives_procedures inside (by omega)).bind ?_)
  rintro list stop ⟨used, spelled, passes, next⟩
  refine ⟨used, spelled, tokens ▸ passes.pending, ?_, ?_⟩
  · rw [passes.line, ParserState.line_advance]
    exact Nat.zero_add _
  · intro t first isWord
    have alert := passes.alert (ParserState.alert_advance _)
    cases kind : stop.next with
    | token t' =>
      rw [kind] at next
      simp only [ParserState.pending, kind, List.head?_cons, Option.mem_def,
        Option.some.injEq] at first
      subst first
      exact next (congrArg some isWord)
    | _ =>
      rw [alert (by rw [kind]; rfl)] at first
      cases first

end Parser

end ProgramQuery.Program

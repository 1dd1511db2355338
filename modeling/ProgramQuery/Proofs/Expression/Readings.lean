import ProgramQuery.Proofs.Expression.Marks
import ProgramQuery.Proofs.Query.Shape

/-! The parsers of programs and of queries read expressions side by side. They look at the same marks
until the first operand is missing, which ends a program and leaves a gap in the tree of a query.
-/

namespace ProgramQuery

open Text

/-- Somewhere in a tree a node should hang and none does. -/
inductive Tree.Lacks : Tree → Prop
  | here : Lacks .missing
  | inside {label text : String} {line : Int} {children : List Tree} {child : Tree}
    (member : child ∈ children) (lacks : child.Lacks)
    : Lacks (.node label text line children)

namespace Query

def markToken (m : Mark) : Token :=
  tokenOf m.token

theorem markToken_text (m : Mark) : (markToken m).text = m.token.text := by
  cases m <;> rfl

theorem markToken_kind (m : Mark) : (markToken m).kind ≠ .dot ∧ (markToken m).kind ≠ .attr := by
  cases m <;> exact ⟨fun same => (by cases same), fun same => by cases same⟩

def closingTokens : List Token :=
  [TokenKind.quote.token, TokenKind.everything.token, TokenKind.closeParenthesis.token]

/-- The parser of queries has the rest of an expression before it. -/
structure ParserState.Reads (s : ParserState) (frame : Frame) (marks : List Mark) : Prop where
  spelled : ∀ m ∈ marks, m.isSpelled = true
  place : ∃ last, s.At last (frame, marks.map markToken ++ closingTokens)

namespace ParserState

variable {s : ParserState} {frame : Frame} {m : Mark} {marks : List Mark}

theorem Reads.shifted (reads : s.Reads frame (m :: marks)) : s.shifted.Reads frame marks := by
  obtain ⟨last, here⟩ := reads.place
  exact ⟨fun m member => reads.spelled m (by simp [member]), _, here.shift⟩

theorem Reads.kind (reads : s.Reads frame (m :: marks))
    : s.next.map (·.kind) = some (markToken m).kind := by
  obtain ⟨last, here⟩ := reads.place
  obtain ⟨⟨shown, next, shows⟩, -⟩ := here.ahead
  rw [next, Option.map_some, shows.kind]

theorem Reads.kind_nil (reads : s.Reads frame []) : s.next.map (·.kind) = some .quote := by
  obtain ⟨last, here⟩ := reads.place
  obtain ⟨⟨shown, next, shows⟩, -⟩ := here.ahead
  rw [next, Option.map_some, shows.kind]
  rfl

/-- The token taken last is that of the mark. -/
theorem Reads.taken (reads : s.Reads frame (m :: marks))
    : titleOf s.shifted.prev = (markToken m).kind.title ∧ plainText s.shifted.prev = m.token.text := by
  obtain ⟨last, here⟩ := reads.place
  have after : s.shifted.At _ _ := here.shift
  have solid := Mark.chars_solid (reads.spelled m (by simp))
  refine ⟨after.taken.titleOf_eq, after.taken.plainText_eq.trans ?_⟩
  rw [markToken_text]
  exact trim_of_solid solid

end ParserState

namespace Parser

variable {α : Type} {scope : Scope} {s : ParserState} {f : Unit → Parser α} {wanted : TokenKind}

theorem peek_bind {f : Option TokenKind → Parser α}
    : (peek >>= f) scope s = f (s.next.map (·.kind)) scope s :=
  rfl

theorem shift_bind : (shift >>= f) scope s = f () scope s.shifted :=
  rfl

theorem expect_eq : expect wanted scope s
      = if titleOf s.next = wanted.title then .ok () s.shifted
        else .error (.mismatch (titleOf s.next) wanted.title) s := by
  change (if titleOf s.next = wanted.title then shift
    else throw (.mismatch (titleOf s.next) wanted.title) : Parser Unit) scope s = _
  split <;> rfl

theorem expect_bind (found : titleOf s.next = wanted.title)
    : (expect wanted >>= f) scope s = f () scope s.shifted := by
  simp only [Bind.bind, ReaderT.bind, EStateM.bind, expect_eq, if_pos found]

theorem expect_bind_error (other : titleOf s.next ≠ wanted.title)
    : (expect wanted >>= f) scope s = .error (.mismatch (titleOf s.next) wanted.title) s := by
  simp only [Bind.bind, ReaderT.bind, EStateM.bind, expect_eq, if_neg other]

/-- A parser stays within an expression, and what it gives is as it should be. -/
def Within (scope : Scope) (frame : Frame) (n : Parser Tree) (post : Tree → Prop) : Prop :=
  ∀ marks s, s.Reads frame marks → ∀ t s', n scope s = .ok t s' →
    post t ∧ ∃ marks', s'.Reads frame marks'

variable {frame : Frame} {marks : List Mark} {n : Parser Tree} {post : Tree → Prop}

theorem Within.mono {stronger : Tree → Prop} (within : Within scope frame n stronger)
    (implies : ∀ t, stronger t → post t)
    : Within scope frame n post := by
  intro marks s reads t s' given
  obtain ⟨holds, rest⟩ := within marks s reads t s' given
  exact ⟨implies t holds, rest⟩

theorem Within.bind {g : Tree → Parser Tree} {middle : Tree → Prop}
    (first : Within scope frame n middle)
    (then_ : ∀ t, middle t → Within scope frame (g t) post)
    : Within scope frame (n >>= g) post := by
  intro marks s reads t s' given
  simp only [Bind.bind, ReaderT.bind, EStateM.bind] at given
  split at given
  · next t₁ s₁ given₁ =>
    obtain ⟨holds, marks₁, reads₁⟩ := first marks s reads t₁ s₁ given₁
    exact then_ t₁ holds marks₁ s₁ reads₁ t s' given
  · cases given

theorem titleOf_next {m : Mark} (reads : s.Reads frame (m :: marks))
    : titleOf s.next = (markToken m).kind.title := by
  obtain ⟨last, here⟩ := reads.place
  exact here.coming.titleOf_eq

theorem titleOf_next_nil (reads : s.Reads frame []) : titleOf s.next = TokenKind.quote.title := by
  obtain ⟨last, here⟩ := reads.place
  exact here.coming.titleOf_eq

theorem within_closing {t : Tree} (holds : post t)
    : Within scope frame (do expect .closeParenthesis; return t) post := by
  intro marks s reads t' s' given
  by_cases closed : titleOf s.next = TokenKind.closeParenthesis.title
  · rw [expect_bind closed] at given
    cases given
    cases marks with
    | nil =>
      rw [titleOf_next_nil reads] at closed
      exact absurd closed (by decide)
    | cons m marks => exact ⟨holds, marks, reads.shifted⟩
  · rw [expect_bind_error closed] at given
    cases given

theorem within_factorWith (inner : Within scope frame n fun _ => True)
    : Within scope frame (factorWith n) fun _ => True := by
  intro marks s reads t s' given
  unfold factorWith at given
  rw [peek_bind] at given
  cases marks with
  | nil =>
    rw [reads.kind_nil] at given
    cases given
    exact ⟨trivial, [], reads⟩
  | cons m marks =>
    rw [reads.kind] at given
    cases m with
    | opening =>
      have rest : Within scope frame (do
          let e ← n
          expect .closeParenthesis
          return e) fun _ => True :=
        inner.bind fun t _ => within_closing trivial
      exact rest marks s.shifted reads.shifted t s' given
    | name _ | integer _ =>
      cases given
      exact ⟨trivial, marks, reads.shifted⟩
    | plus | minus | times | closing =>
      cases given
      exact ⟨trivial, _, reads⟩

theorem within_takenLeaf {text : Option Token → String}
    : Within scope frame (takenLeaf text) fun t => ∃ label shown, t = .leaf label shown := by
  rintro marks s reads t s' ⟨⟩
  exact ⟨⟨_, _, rfl⟩, marks, reads⟩

/-- A chain goes on with its first operand, so it lacks what that lacks. -/
theorem within_chain {isSign : TokenKind → Bool} (noSign : isSign .quote = false)
    (operand : Within scope frame n fun _ => True) (fuel : Nat) (left : Tree)
    : Within scope frame (chain isSign n fuel left) fun t => left.Lacks → t.Lacks := by
  induction fuel generalizing left with
  | zero => rintro marks s reads t s' ⟨⟩
  | succ fuel ih =>
    intro marks s reads t s' given
    unfold chain at given
    rw [peek_bind] at given
    split at given
    · next isNext =>
      cases marks with
      | nil => simp [reads.kind_nil, noSign] at isNext
      | cons m marks =>
        rw [shift_bind] at given
        have rest : Within scope frame (do
            let sign ← takenLeaf plainText
            let right ← n
            chain isSign n fuel (sign.withChildren [left, right])) fun t =>
              left.Lacks → t.Lacks := by
          refine within_takenLeaf.bind ?_
          rintro _ ⟨label, text, rfl⟩
          refine operand.bind fun right _ => (ih _).mono fun t keeps lacks => keeps ?_
          exact .inside (List.mem_append_right [] (by simp)) lacks
        exact rest marks s.shifted reads.shifted t s' given
    · cases given
      exact ⟨id, marks, reads⟩

theorem within_termWith (fuel : Nat) (inner : Within scope frame n fun _ => True)
    : Within scope frame (termWith fuel n) fun _ => True :=
  (within_factorWith inner).bind fun t _ =>
    (within_chain rfl (within_factorWith inner) fuel t).mono fun _ _ => trivial

theorem within_expressionWithin (fuel : Nat)
    : Within scope frame (expressionWithin fuel) fun _ => True := by
  induction fuel with
  | zero =>
    rintro marks s reads t s' ⟨⟩
  | succ fuel ih =>
    have terms := within_termWith fuel ih
    exact terms.bind fun t _ => (within_chain rfl terms fuel t).mono fun _ _ => trivial

end Parser

end Query

def Program.closingTokens : List Program.Token :=
  [Program.TokenKind.semicolon.token, Program.TokenKind.closeBracket.token]

structure Together (frame : Query.Frame) (marks : List Mark) (ps : Program.ParserState)
    (qs : Query.ParserState)
    : Prop where
  program : ps.Faces (marks.map Mark.token ++ Program.closingTokens)
  query : qs.Reads frame marks

/-- Both parsers give the same tree and leave fewer marks than there were. Only the parser of queries
may go on where an operand is missing, and its tree lacks the operand. -/
def ReadAlike (frame : Query.Frame) (size : Nat)
    : EStateM.Result Program.Failure Program.ParserState Expr
      → EStateM.Result Query.Failure Query.ParserState Tree → Prop
  | .ok e ps, .ok t qs =>
    t = e.toTree 0 ∧ ∃ marks, marks.length < size ∧ Together frame marks ps qs
  | .ok _ _, .error _ _ => False
  | .error _ _, .ok t qs => t.Lacks ∧ ∃ marks, qs.Reads frame marks
  | .error _ _, .error _ _ => True

section ReadAlike

variable {size size' fuel fuel' : Nat} {frame : Query.Frame} {m : Mark} {marks : List Mark}
  {ps : Program.ParserState} {qs : Query.ParserState} {scope : Query.Scope}
  {inner : Program.Parser Expr} {inner' : Query.Parser Tree}

theorem Together.shifted (together : Together frame (m :: marks) ps qs)
    : Together frame marks ps.shifted qs.shifted :=
  ⟨together.program.shifted, together.query.shifted⟩

theorem ReadAlike.mono {left : EStateM.Result Program.Failure Program.ParserState Expr}
    {right : EStateM.Result Query.Failure Query.ParserState Tree}
    (alike : ReadAlike frame size left right)
    (le : size ≤ size')
    : ReadAlike frame size' left right := by
  cases left with
  | ok e ps =>
    cases right with
    | ok t qs =>
      obtain ⟨same, marks, fewer, together⟩ := alike
      exact ⟨same, marks, Nat.lt_of_lt_of_le fewer le, together⟩
    | error _ _ => exact alike
  | error _ _ =>
    cases right with
    | ok t qs => exact alike
    | error _ _ => trivial

theorem ReadAlike.bind {a : Program.Parser Expr} {f : Expr → Program.Parser Expr}
    {b : Query.Parser Tree} {g : Tree → Query.Parser Tree}
    (first : ReadAlike frame size (a ps) (b scope qs))
    (then_ : ∀ e marks ps qs, marks.length < size → Together frame marks ps qs →
      ReadAlike frame size' (f e ps) (g (e.toTree 0) scope qs))
    (keeps : ∀ t, t.Lacks → Query.Parser.Within scope frame (g t) Tree.Lacks)
    : ReadAlike frame size' ((a >>= f) ps) ((b >>= g) scope qs) := by
  simp only [Bind.bind, EStateM.bind, ReaderT.bind]
  cases left : a ps with
  | ok e ps' =>
    cases right : b scope qs with
    | ok t qs' =>
      rw [left, right] at first
      obtain ⟨rfl, marks, fewer, together⟩ := first
      exact then_ e marks ps' qs' fewer together
    | error _ _ => simp [left, right, ReadAlike] at first
  | error _ _ =>
    cases right : b scope qs with
    | ok t qs' =>
      rw [left, right] at first
      obtain ⟨lacks, marks, reads⟩ := first
      simp only
      cases result : g t scope qs' with
      | ok t' _ => exact keeps t lacks marks qs' reads t' _ result
      | error _ _ => trivial
    | error _ _ => trivial

/-- A parenthesis is closed by both parsers or by none. -/
theorem alike_closing {e : Expr} (together : Together frame marks ps qs)
    : ReadAlike frame (marks.length + 1)
        ((do discard (Program.Parser.expect .closeParenthesis); return e : Program.Parser Expr) ps)
        ((do Query.Parser.expect .closeParenthesis; return e.toTree 0 : Query.Parser Tree)
          scope qs) := by
  cases marks with
  | nil =>
    have left : ps.next.kind? ≠ some .closeParenthesis := by
      rw [together.program.kind]
      nofun
    have right : Query.titleOf qs.next ≠ Query.TokenKind.closeParenthesis.title := by
      rw [Query.Parser.titleOf_next_nil together.query]
      decide
    rw [Program.Parser.word_bind_error left, Query.Parser.expect_bind_error right]
    trivial
  | cons m more =>
    have kind := together.program.kind
    have title := Query.Parser.titleOf_next together.query
    cases m with
    | closing =>
      have kind : ps.next.kind? = some .closeParenthesis := kind
      have title : Query.titleOf qs.next = Query.TokenKind.closeParenthesis.title := title
      rw [Program.Parser.word_bind kind, Query.Parser.expect_bind title]
      exact ⟨rfl, more, by simp, together.shifted⟩
    | name _ | integer _ | plus | minus | times | opening =>
      have left : ps.next.kind? ≠ some .closeParenthesis := by
        rw [kind]
        nofun
      have right : Query.titleOf qs.next ≠ Query.TokenKind.closeParenthesis.title := by
        intro same
        cases Query.Parser.TokenKind.title_injective (title.symm.trans same)
      rw [Program.Parser.word_bind_error left, Query.Parser.expect_bind_error right]
      trivial

theorem alike_factorWith (nested : ∀ marks ps qs, marks.length < size → Together frame marks ps qs →
      ReadAlike frame marks.length (inner ps) (inner' scope qs))
    (enough : marks.length ≤ size) (together : Together frame marks ps qs)
    : ReadAlike frame marks.length (Program.Parser.factorWith inner ps)
        (Query.Parser.factorWith inner' scope qs) := by
  unfold Program.Parser.factorWith Query.Parser.factorWith
  rw [Program.Parser.peek_bind, Query.Parser.peek_bind]
  cases marks with
  | nil =>
    rw [together.program.kind, together.query.kind_nil]
    exact ⟨.here, [], together.query⟩
  | cons m more =>
    have kind := together.program.kind
    have fewer : more.length < (m :: more).length := by simp
    obtain ⟨title, text⟩ := together.query.taken
    rw [kind, together.query.kind]
    cases m with
    | name x =>
      have left : (Program.Parser.expect .name >>= fun text => pure (Expr.name text)) ps
          = .ok (.name x) ps.shifted := by
        refine (Program.Parser.expect_bind kind).trans ?_
        rw [together.program.1]
        rfl
      change ReadAlike frame _
        ((Program.Parser.expect .name >>= fun text => pure (Expr.name text)) ps)
        (.ok (.leaf "NAME" (Query.plainText qs.shifted.prev)) qs.shifted)
      rw [left, text]
      exact ⟨rfl, more, fewer, together.shifted⟩
    | integer digits =>
      have left : (Program.Parser.expect .integer >>= fun text => pure (Expr.literal text)) ps
          = .ok (.literal digits) ps.shifted := by
        refine (Program.Parser.expect_bind kind).trans ?_
        rw [together.program.1]
        rfl
      change ReadAlike frame _
        ((Program.Parser.expect .integer >>= fun text => pure (Expr.literal text)) ps)
        (.ok (.leaf (Query.titleOf qs.shifted.prev) (Query.plainText qs.shifted.prev)) qs.shifted)
      rw [left, title, text]
      exact ⟨rfl, more, fewer, together.shifted⟩
    | opening =>
      have inside := nested more _ _ (by simp at enough; omega) together.shifted
      refine ReadAlike.bind inside (fun e rest ps qs left together => ?_) fun t lacks => ?_
      · exact (alike_closing together).mono (by simp; omega)
      · exact Query.Parser.within_closing lacks
    | plus | minus | times | closing => exact ⟨.here, _, together.query⟩

/-- Two ways to tell which operators go on with a chain. -/
structure SameSigns (operator? : Program.TokenKind → Option Operator)
    (isSign : Query.TokenKind → Bool)
    : Prop where
  operator : ∀ m : Mark, (∃ op, operator? m.token.kind = some op
      ∧ (Query.markToken m).kind.title = op.label ∧ m.token.text = op.symbol
      ∧ isSign (Query.markToken m).kind = true)
    ∨ operator? m.token.kind = none ∧ isSign (Query.markToken m).kind = false
  semicolon : operator? .semicolon = none
  quote : isSign .quote = false

theorem sameSigns_sum : SameSigns Program.Parser.sumOperator? Query.Parser.isSumSign where
  operator m := by
    cases m with
    | plus => exact .inl ⟨.plus, rfl, rfl, rfl, rfl⟩
    | minus => exact .inl ⟨.minus, rfl, rfl, rfl, rfl⟩
    | name _ | integer _ | times | opening | closing => exact .inr ⟨rfl, rfl⟩
  semicolon := rfl
  quote := rfl

theorem sameSigns_product : SameSigns Program.Parser.productOperator? Query.Parser.isProductSign where
  operator m := by
    cases m with
    | times => exact .inl ⟨.times, rfl, rfl, rfl, rfl⟩
    | name _ | integer _ | plus | minus | opening | closing => exact .inr ⟨rfl, rfl⟩
  semicolon := rfl
  quote := rfl

theorem alike_chain {operator? : Program.TokenKind → Option Operator}
    {isSign : Query.TokenKind → Bool} (signs : SameSigns operator? isSign)
    {operand : Program.Parser Expr} {operand' : Query.Parser Tree}
    (operands : ∀ marks ps qs, marks.length < size → Together frame marks ps qs →
      ReadAlike frame marks.length (operand ps) (operand' scope qs))
    (within : Query.Parser.Within scope frame operand' fun _ => True)
    (fuel fuel' : Nat) (left : Expr) (short : marks.length ≤ size) (enough : marks.length < fuel)
    (enough' : marks.length < fuel') (together : Together frame marks ps qs)
    : ReadAlike frame (marks.length + 1) (Program.Parser.chain operator? operand fuel left ps)
        (Query.Parser.chain isSign operand' fuel' (left.toTree 0) scope qs) := by
  induction fuel generalizing fuel' left marks ps qs with
  | zero => omega
  | succ fuel ih =>
    obtain ⟨fuel', rfl⟩ : ∃ spare, fuel' = spare + 1 := ⟨fuel' - 1, by omega⟩
    unfold Program.Parser.chain Query.Parser.chain
    rw [Program.Parser.peek_bind, Query.Parser.peek_bind]
    cases marks with
    | nil =>
      have kind : ps.next.kind? = some .semicolon := together.program.kind
      rw [kind, together.query.kind_nil, Option.bind_some, signs.semicolon, Option.any_some,
        signs.quote]
      exact ⟨rfl, [], by simp, together⟩
    | cons m more =>
      rw [together.program.kind, together.query.kind, Option.bind_some, Option.any_some]
      obtain ⟨op, isOperator, label, symbol, isNext⟩ | ⟨isOther, isNone⟩ := signs.operator m
      · obtain ⟨title, text⟩ := together.query.taken
        rw [isOperator, isNext, if_pos rfl]
        change ReadAlike frame _
          ((operand >>= fun right =>
            Program.Parser.chain operator? operand fuel (.binary op left right)) ps.shifted)
          ((operand' >>= fun right => Query.Parser.chain isSign operand' fuel'
            ((Tree.leaf (Query.titleOf qs.shifted.prev)
              (Query.plainText qs.shifted.prev)).withChildren [left.toTree 0, right]))
            scope qs.shifted)
        rw [title, text, label, symbol]
        simp only [List.length_cons] at short enough enough' ⊢
        refine ReadAlike.bind (operands more _ _ (by omega) together.shifted)
          (fun right rest ps qs fewer together => ?_) fun right lacks => ?_
        · have alike := ih fuel' (.binary op left right) (by omega) (by omega) (by omega) together
          exact alike.mono (by omega)
        · refine (Query.Parser.within_chain signs.quote within fuel' _).mono fun t keeps => ?_
          exact keeps (.inside (List.mem_append_right [] (by simp)) lacks)
      · rw [isOther, isNone, if_neg Bool.false_ne_true]
        exact ⟨rfl, m :: more, by simp, together⟩

theorem alike_termWith (nested : ∀ marks ps qs, marks.length < size → Together frame marks ps qs →
      ReadAlike frame marks.length (inner ps) (inner' scope qs))
    (within : Query.Parser.Within scope frame inner' fun _ => True)
    (short : marks.length ≤ size) (enough : marks.length ≤ fuel) (enough' : marks.length ≤ fuel')
    (together : Together frame marks ps qs)
    : ReadAlike frame marks.length (Program.Parser.termWith fuel inner ps)
        (Query.Parser.termWith fuel' inner' scope qs) := by
  have factors := Query.Parser.within_factorWith within
  refine ReadAlike.bind (alike_factorWith nested short together)
    (fun left rest ps qs fewer together => ?_) fun left lacks => ?_
  · have chained := alike_chain sameSigns_product
      (fun _ _ _ fewer => alike_factorWith nested (Nat.le_of_lt fewer)) factors fuel fuel' left
      (Nat.le_of_lt (Nat.lt_of_lt_of_le fewer short)) (by omega) (by omega) together
    exact chained.mono (by omega)
  · exact (Query.Parser.within_chain rfl factors fuel' left).mono fun t keeps => keeps lacks

/-- Both parsers read an expression alike, whatever the depth they allow as long as it is enough. -/
theorem alike_expressionWithin (enough : marks.length < fuel)
    (enough' : marks.length < fuel') (together : Together frame marks ps qs)
    : ReadAlike frame marks.length (Program.Parser.expressionWithin fuel ps)
        (Query.Parser.expressionWithin fuel' scope qs) := by
  induction fuel generalizing fuel' marks ps qs with
  | zero => omega
  | succ fuel ih =>
    obtain ⟨fuel', rfl⟩ : ∃ spare, fuel' = spare + 1 := ⟨fuel' - 1, by omega⟩
    -- The expressions in parentheses are shorter, so that what is left of both fuels does for them.
    have nested : ∀ rest ps qs, rest.length < marks.length → Together frame rest ps qs →
        ReadAlike frame rest.length (Program.Parser.expressionWithin fuel ps)
          (Query.Parser.expressionWithin fuel' scope qs) :=
      fun rest ps qs fewer together => ih (by omega) (by omega) together
    have terms : ∀ rest ps qs, rest.length ≤ marks.length → Together frame rest ps qs →
        ReadAlike frame rest.length
          (Program.Parser.termWith fuel (Program.Parser.expressionWithin fuel) ps)
          (Query.Parser.termWith fuel' (Query.Parser.expressionWithin fuel') scope qs) :=
      fun rest ps qs short together =>
        alike_termWith nested (Query.Parser.within_expressionWithin fuel') short (by omega)
          (by omega) together
    have within : Query.Parser.Within scope frame
        (Query.Parser.termWith fuel' (Query.Parser.expressionWithin fuel')) fun _ => True :=
      Query.Parser.within_termWith fuel' (Query.Parser.within_expressionWithin fuel')
    refine ReadAlike.bind (terms marks ps qs (Nat.le_refl _) together)
      (fun left rest ps qs fewer together => ?_) fun left lacks => ?_
    · have chained := alike_chain sameSigns_sum
        (fun rest ps qs fewer => terms rest ps qs (Nat.le_of_lt fewer)) within fuel fuel' left
        (Nat.le_of_lt fewer) (by omega) (by omega) together
      exact chained.mono (by omega)
    · exact (Query.Parser.within_chain rfl within fuel' left).mono fun t keeps => keeps lacks

theorem alike_expression (together : Together frame marks ps qs)
    : ReadAlike frame marks.length (Program.Parser.expression ps)
        (Query.Parser.expression scope qs) := by
  obtain ⟨last, here⟩ := together.query.place
  have budget := together.program.length_le
  have budget' := here.ahead.length_le
  simp only [List.length_append, List.length_map] at budget budget'
  exact alike_expressionWithin (by omega) (by omega) together

end ReadAlike

end ProgramQuery

import ProgramQuery.Proofs.Program.Effects
import ProgramQuery.Proofs.Program.Outline
import ProgramQuery.Proofs.Program.Printing

/-! Reading undoes printing. The parser takes the tokens of a printed program one after the other and
gives the program back.
-/

namespace ProgramQuery

open Program Text

namespace Program

def ParserState.Ahead (s : ParserState) : List Token → Prop
  | [] => s.next = .nothing
  | t :: more => s.next = .token t ∧ Laid more s.rest ∧ ∀ t ∈ more, t.unmistakable = true

theorem ParserState.ahead_advance {s : ParserState} {tokens : List Token}
    (laid : Laid tokens s.rest) (clear : ∀ t ∈ tokens, t.unmistakable = true)
    : s.advance.Ahead tokens := by
  cases tokens with
  | nil => simp [ParserState.Ahead, ParserState.advance, ParserState.read, laid.scan_nil]
  | cons t more =>
    obtain ⟨n, rest, found, laid'⟩ := laid.scan_cons (clear t (by simp))
    simp only [ParserState.Ahead, ParserState.advance, ParserState.read, found]
    exact ⟨trivial, laid', fun t member => clear t (by simp [member])⟩

/-- The budget is enough for the tokens ahead. -/
theorem ParserState.Ahead.length_le {s : ParserState} {tokens : List Token} (ahead : s.Ahead tokens)
    : tokens.length + 2 ≤ s.budget := by
  cases tokens with
  | nil => simp [ParserState.budget]
  | cons t more =>
    have := ahead.2.1.length_le ahead.2.2
    simp only [ParserState.budget, List.length_cons]
    omega

namespace Parser

variable {α β : Type} {m : Parser α} {a : α} {b : β} {t : Token}
  {before middle after more : List Token}

/-- With some tokens ahead, the parser gives a value and then has the other tokens ahead. -/
def Takes (m : Parser α) (before : List Token) (a : α) (after : List Token) : Prop :=
  ∀ s, s.Ahead before → ∃ s', m s = .ok a s' ∧ s'.Ahead after

theorem Takes.pure : Takes (Pure.pure a) before a before :=
  fun s ahead => ⟨s, rfl, ahead⟩

theorem Takes.bind {f : α → Parser β} (first : m.Takes before a middle)
    (then_ : (f a).Takes middle b after)
    : Takes (m >>= f) before b after := by
  intro s ahead
  obtain ⟨s', given, ahead'⟩ := first s ahead
  obtain ⟨s'', given', ahead''⟩ := then_ s' ahead'
  refine ⟨s'', ?_, ahead''⟩
  simp only [Bind.bind, EStateM.bind, given]
  exact given'

theorem Takes.discard (takes : m.Takes before a after)
    : Takes (Functor.discard m) before .unit after := by
  intro s ahead
  obtain ⟨s', given, ahead'⟩ := takes s ahead
  refine ⟨s', ?_, ahead'⟩
  simp only [Functor.discard, Functor.mapConst, EStateM.map, given, Function.comp, Function.const]

/-- A parser that sets its fuel by the input left has enough for all tokens ahead. -/
theorem Takes.of_budget {m : Nat → Parser α}
    (takes : ∀ fuel, before.length + 2 ≤ fuel → (m fuel).Takes before a after)
    : Takes (fun s => m s.budget s) before a after :=
  fun s ahead => takes s.budget ahead.length_le s ahead

theorem takes_peek : Takes peek (t :: more) (some t.kind) (t :: more) := by
  intro s ahead
  refine ⟨s, ?_, ahead⟩
  simp only [peek, Bind.bind, EStateM.bind, get, getThe, MonadStateOf.get, EStateM.get, ahead.1]
  rfl

theorem takes_peek_nil : Takes peek [] none [] := by
  intro s ahead
  refine ⟨s, ?_, ahead⟩
  simp only [ParserState.Ahead] at ahead
  simp only [peek, Bind.bind, EStateM.bind, get, getThe, MonadStateOf.get, EStateM.get, ahead]
  rfl

theorem takes_shift : Takes shift (t :: more) () more := by
  rintro s ⟨_, laid, clear⟩
  refine ⟨{ s.advance with prev := s.next }, rfl, ?_⟩
  have ahead := s.ahead_advance laid clear
  cases more with
  | nil => exact ahead
  | cons t more => exact ahead

theorem takes_expect {kind : TokenKind} {text : String}
    : Takes (expect kind) (⟨kind, text⟩ :: more) text more := by
  intro s ahead
  obtain ⟨s', given, ahead'⟩ := takes_shift s ahead
  refine ⟨s', ?_, ahead'⟩
  simp only [expect, Bind.bind, EStateM.bind, get, getThe, MonadStateOf.get, EStateM.get, ahead.1,
    Lookahead.kind?, given, Lookahead.text, if_true]
  rfl

theorem takes_word (kind : TokenKind)
    : Takes (Functor.discard (expect kind)) (kind.token :: more) .unit more :=
  takes_expect.discard

section Chains

variable {operator? : TokenKind → Option Operator} {operand : Parser Expr} {level : Nat}

theorem takes_chain_end (stop : ∀ t ∈ more.head?, operator? t.kind = none) (fuel : Nat) (e : Expr)
    : Takes (chain operator? operand (fuel + 1) e) more e more := by
  have looks : ∃ kind?, Takes peek more kind? more ∧ kind?.bind operator? = none := by
    cases more with
    | nil => exact ⟨none, takes_peek_nil, rfl⟩
    | cons t more => exact ⟨some t.kind, takes_peek, stop t (by simp)⟩
  obtain ⟨kind?, looks, none⟩ := looks
  refine looks.bind ?_
  rw [none]
  exact .pure

variable (operators : ∀ op : Operator, op.level = level → operator? op.kind = some op) {fuel : Nat}
include operators

theorem takes_chain_step {op : Operator} (same : op.level = level) {left right : Expr}
    {e : Expr} (reads : Takes operand before right middle)
    (goesOn : Takes (chain operator? operand fuel (.binary op left right)) middle e after)
    : Takes (chain operator? operand (fuel + 1) left) (op.kind.token :: before) e after := by
  refine takes_peek.bind ?_
  have known : (some op.kind.token.kind).bind operator? = some op := operators op same
  rw [known]
  exact takes_shift.bind (reads.bind goesOn)

variable {bound : Nat} {good : List Token → Prop}
  (operands : ∀ e more, (e.tokens (level + 1)).length ≤ bound → good more →
    Takes operand (e.tokens (level + 1) ++ more) e more)
  (between : ∀ op : Operator, op.level = level → ∀ more, good (op.kind.token :: more))
include operands between

/-- When the operands of one level are read and chained, the chain gets to the point where it has the
whole expression, by induction over the expression along its left operands. -/
theorem takes_chain (e : Expr) {e' : Expr}
    (short : (e.tokens level).length ≤ bound) (fine : good more)
    (goesOn : Takes (chain operator? operand fuel e) more e' after)
    : Takes (operand >>= chain operator? operand (fuel + e.spine level)) (e.tokens level ++ more) e'
        after := by
  induction e generalizing fuel more with
  | name x => exact (operands (.name x) more short fine).bind goesOn
  | literal digits => exact (operands (.literal digits) more short fine).bind goesOn
  | binary op left right ih _ =>
    by_cases same : op.level = level
    · subst same
      simp only [Expr.tokens, Nat.lt_irrefl, if_false, List.length_append,
        List.length_cons] at short
      simp only [Expr.tokens, Nat.lt_irrefl, if_false, List.append_assoc, List.cons_append,
        Expr.spine, if_true, ← Nat.add_assoc, Nat.add_right_comm fuel _ 1]
      refine ih (by omega) (between op rfl _) ?_
      exact takes_chain_step operators rfl (operands right more (by omega) fine) goesOn
    · rw [Expr.tokens_succ same] at short ⊢
      simp only [Expr.spine, same, if_false, Nat.add_zero]
      exact (operands _ more short fine).bind goesOn

theorem takes_operands (e : Expr) (short : (e.tokens level).length ≤ bound)
    (enough : e.spine level < fuel) (fine : good more)
    (stop : ∀ t ∈ more.head?, operator? t.kind = none)
    : Takes (operand >>= chain operator? operand fuel) (e.tokens level ++ more) e more := by
  obtain ⟨spare, rfl⟩ : ∃ spare, fuel = spare + 1 + e.spine level :=
    ⟨fuel - 1 - e.spine level, by omega⟩
  exact takes_chain operators operands between e short fine (takes_chain_end stop spare e)

end Chains

theorem takes_factorWith {inner : Parser Expr} {bound : Nat}
    (inside : ∀ e more, (e.tokens 0).length < bound →
      Takes inner (e.tokens 0 ++ TokenKind.closeParenthesis.token :: more) e
        (TokenKind.closeParenthesis.token :: more))
    (e : Expr) (short : (e.tokens 2).length ≤ bound)
    : Takes (factorWith inner) (e.tokens 2 ++ more) e more := by
  cases e with
  | name x => exact takes_peek.bind (takes_expect.bind .pure)
  | literal digits => exact takes_peek.bind (takes_expect.bind .pure)
  | binary op left right =>
    have low : op.level < 2 := by cases op <;> decide
    have bare : (Expr.binary op left right).tokens 2
        = TokenKind.openParenthesis.token
          :: ((Expr.binary op left right).tokens 0 ++ [TokenKind.closeParenthesis.token]) := by
      simp [Expr.tokens, low]
    rw [bare] at short ⊢
    simp only [List.length_cons, List.length_append, List.length_nil] at short
    rw [List.cons_append, List.append_assoc, List.singleton_append]
    exact takes_peek.bind (takes_shift.bind ((inside _ more (by omega)).bind
      ((takes_word .closeParenthesis).bind .pure)))

def Closes (more : List Token) : Prop :=
  ∀ t ∈ more.head?, sumOperator? t.kind = none ∧ productOperator? t.kind = none

theorem takes_expressionWithin (fuel : Nat) (e : Expr) (enough : (e.tokens 0).length < fuel)
    (closes : Closes more)
    : Takes (expressionWithin fuel) (e.tokens 0 ++ more) e more := by
  induction fuel generalizing e more with
  | zero => omega
  | succ fuel ih =>
    have factors (e : Expr) (more : List Token) (short : (e.tokens 2).length ≤ fuel) (_ : True)
        : Takes (factorWith (expressionWithin fuel)) (e.tokens 2 ++ more) e more := by
      refine takes_factorWith (fun e more short => ih e short ?_) e short
      simp [Closes, TokenKind.token, sumOperator?, productOperator?]
    have terms (e : Expr) (more : List Token) (short : (e.tokens 1).length ≤ fuel)
        (stop : ∀ t ∈ more.head?, productOperator? t.kind = none)
        : Takes (termWith fuel (expressionWithin fuel)) (e.tokens 1 ++ more) e more := by
      refine takes_operands ?_ factors (fun _ _ _ => trivial) e short ?_ trivial stop
      · intro op product
        cases op <;> first | rfl | cases product
      · exact Nat.lt_of_lt_of_le (e.spine_lt 1) short
    have short : (e.tokens 0).length ≤ fuel := by omega
    refine takes_operands ?_ terms ?_ e short ?_ (fun t member => (closes t member).2)
      fun t member => (closes t member).1
    · intro op sum
      cases op <;> first | rfl | cases sum
    · intro op sum more t member
      obtain rfl : op.kind.token = t := by simpa using member
      cases op <;> first | rfl | cases sum
    · exact Nat.lt_of_lt_of_le (e.spine_lt 0) short

theorem takes_expression (e : Expr) (closes : Closes more)
    : Takes expression (e.tokens 0 ++ more) e more := by
  refine .of_budget fun fuel enough => takes_expressionWithin fuel e ?_ closes
  rw [List.length_append] at enough
  omega

theorem takes_assignment (target : String) (value : Expr)
    : Takes assignment ((Stmt.assign target value).tokens ++ more) (.assign target value) more := by
  simp only [Stmt.tokens, List.cons_append, List.append_assoc]
  refine takes_expect.bind ((takes_word .assign).bind ((takes_expression value ?_).bind
    ((takes_word .semicolon).bind .pure)))
  simp [Closes, TokenKind.token, sumOperator?, productOperator?]

theorem takes_call (callee : String)
    : Takes call ((Stmt.call callee).tokens ++ more) (.call callee) more :=
  (takes_word .callWord).bind (takes_expect.bind ((takes_word .semicolon).bind .pure))

section Lists

variable {lists : Parser (List Stmt)} {body thenBody elseBody : List Stmt} {condition : String}

theorem takes_loopWith (ends : Stmt.listEnds body = true)
    (reads : ∀ more, Takes lists (Stmt.tokensOf body ++ TokenKind.closeBracket.token :: more) body
      (TokenKind.closeBracket.token :: more))
    : Takes (loopWith lists) ((Stmt.loop condition body).tokens ++ more) (.loop condition body)
        more := by
  simp only [Stmt.tokens, List.cons_append, List.append_assoc]
  refine (takes_word .whileWord).bind (takes_expect.bind ((takes_word .openBracket).bind
    ((reads more).bind ?_)))
  simp only [ends, Bool.not_true, Bool.false_eq_true, if_false]
  exact (takes_word .closeBracket).bind .pure

theorem takes_branchWith (readsThen : ∀ more, Takes lists
      (Stmt.tokensOf thenBody ++ TokenKind.closeBracket.token :: more) thenBody
      (TokenKind.closeBracket.token :: more))
    (readsElse : ∀ more, Takes lists
      (Stmt.tokensOf elseBody ++ TokenKind.closeBracket.token :: more) elseBody
      (TokenKind.closeBracket.token :: more))
    : Takes (branchWith lists) ((Stmt.branch condition thenBody elseBody).tokens ++ more)
        (.branch condition thenBody elseBody) more := by
  simp only [Stmt.tokens, List.cons_append, List.append_assoc]
  exact (takes_word .ifWord).bind (takes_expect.bind ((takes_word .thenWord).bind
    ((takes_word .openBracket).bind ((readsThen _).bind ((takes_word .closeBracket).bind
    ((takes_word .elseWord).bind ((takes_word .openBracket).bind ((readsElse _).bind
    ((takes_word .closeBracket).bind .pure)))))))))

end Lists

theorem takes_statementWith {lists : Parser (List Stmt)} {bound : Nat}
    (reads : ∀ body more, (Stmt.tokensOf body).length + 2 ≤ bound →
      (∀ s ∈ body, s.Throughout Stmt.filled) →
      Takes lists (Stmt.tokensOf body ++ TokenKind.closeBracket.token :: more) body
        (TokenKind.closeBracket.token :: more))
    (s : Stmt) (filled : s.Throughout Stmt.filled) (short : s.tokens.length ≤ bound)
    : Takes (statementWith lists) (s.tokens ++ more) s more := by
  have count : Takes (modify fun s => { s with line := s.line + 1 } : Parser Unit)
      (s.tokens ++ more) () (s.tokens ++ more) := by
    intro state ahead
    refine ⟨_, rfl, ?_⟩
    cases tokens : s.tokens ++ more with
    | nil => rwa [tokens] at ahead
    | cons t rest => rwa [tokens] at ahead
  refine count.bind ?_
  have inside := (Stmt.throughout_iff.mp filled).2
  cases s with
  | assign target value => exact takes_peek.bind (takes_assignment target value)
  | call callee => exact takes_peek.bind (takes_call callee)
  | loop condition body =>
    simp only [Stmt.tokens, List.length_cons, List.length_append, List.length_nil] at short
    refine takes_peek.bind (takes_loopWith ?_ fun more => reads body more (by omega) inside)
    exact Stmt.listEnds_of_filled body (by simpa [Stmt.filled] using filled _ .refl) inside
  | branch condition thenBody elseBody =>
    simp only [Stmt.tokens, List.length_cons, List.length_append, List.length_nil] at short
    simp only [Stmt.parts, List.forall_mem_append] at inside
    exact takes_peek.bind (takes_branchWith
      (fun more => reads thenBody more (by omega) inside.1)
      fun more => reads elseBody more (by omega) inside.2)

theorem takes_statementsFrom {statement : Parser Stmt} (body : List Stmt) {fuel : Nat}
    {previous : Option Stmt} (enough : body.length < fuel)
    (reads : ∀ s ∈ body, ∀ more, Takes statement (s.tokens ++ more) s more)
    (ends : ∀ s ∈ body, s.ends = true) (previousEnds : ∀ s ∈ previous, s.ends = true)
    : Takes (statementsFrom statement fuel previous)
        (Stmt.tokensOf body ++ TokenKind.closeBracket.token :: more) body
        (TokenKind.closeBracket.token :: more) := by
  induction body generalizing fuel previous with
  | nil =>
    obtain ⟨fuel, rfl⟩ : ∃ spare, fuel = spare + 1 := ⟨fuel - 1, by simp at enough; omega⟩
    exact takes_peek.bind .pure
  | cons s rest ih =>
    obtain ⟨fuel, rfl⟩ : ∃ spare, fuel = spare + 1 := ⟨fuel - 1, by omega⟩
    obtain ⟨t, tokens, start, kind⟩ := s.tokens_eq_cons
    have first := reads s (by simp)
    rw [Stmt.tokensOf, List.append_assoc]
    have looks : Takes peek (s.tokens ++ (Stmt.tokensOf rest
        ++ TokenKind.closeBracket.token :: more)) (some t.kind) (s.tokens ++ (Stmt.tokensOf rest
        ++ TokenKind.closeBracket.token :: more)) := by
      rw [start]
      exact takes_peek
    refine looks.bind ?_
    rw [if_neg (by simpa using kind)]
    refine (first _).bind ?_
    have settled : previous.any (!·.ends) = false := by
      cases previous with
      | none => rfl
      | some before => simp [previousEnds before rfl]
    simp only [settled, Bool.false_eq_true, if_false]
    refine (ih (by simpa using enough) (fun s member => reads s (by simp [member]))
      (fun s member => ends s (by simp [member])) ?_).bind .pure
    rintro s' ⟨rfl⟩
    exact ends s (by simp)

theorem takes_statementsWithin (fuel : Nat) (body : List Stmt)
    (enough : (Stmt.tokensOf body).length + 2 ≤ fuel)
    (filled : ∀ s ∈ body, s.Throughout Stmt.filled)
    : Takes (statementsWithin fuel) (Stmt.tokensOf body ++ TokenKind.closeBracket.token :: more) body
        (TokenKind.closeBracket.token :: more) := by
  induction fuel generalizing body more with
  | zero => omega
  | succ fuel ih =>
    refine takes_statementsFrom body ?_ ?_ (fun s member => s.ends_of_filled (filled s member))
      (by simp)
    · have := Stmt.length_le_tokensOf body
      omega
    · intro s member more
      have short := Stmt.tokens_length_le member
      exact takes_statementWith (fun body more short filled => ih body short filled) s
        (filled s member) (by omega)

theorem takes_procedure (procedure : Procedure)
    (filled : ∀ s ∈ procedure.body, s.Throughout Stmt.filled)
    : Takes Parser.procedure (procedure.tokens ++ more) procedure more := by
  have body : Takes statements
      (Stmt.tokensOf procedure.body ++ TokenKind.closeBracket.token :: more) procedure.body
      (TokenKind.closeBracket.token :: more) := by
    refine .of_budget fun fuel enough => takes_statementsWithin fuel procedure.body ?_ filled
    rw [List.length_append] at enough
    omega
  simp only [Procedure.tokens, List.cons_append, List.append_assoc]
  exact (takes_word .procedureWord).bind (takes_expect.bind ((takes_word .openBracket).bind
    (body.bind ((takes_word .closeBracket).bind .pure))))

/-- Procedures are read for as long as the next token starts one, whatever comes after it. -/
theorem takes_procedures (list : List Procedure) {fuel : Nat} (enough : list.length < fuel)
    (filled : ∀ procedure ∈ list, ∀ s ∈ procedure.body, s.Throughout Stmt.filled)
    (stop : ∀ t ∈ more.head?, t.kind ≠ .procedureWord)
    : Takes (procedures fuel) (list.flatMap Procedure.tokens ++ more) list more := by
  induction list generalizing fuel with
  | nil =>
    obtain ⟨fuel, rfl⟩ : ∃ spare, fuel = spare + 1 := ⟨fuel - 1, by simp at enough; omega⟩
    rw [List.flatMap_nil, List.nil_append]
    cases more with
    | nil => exact takes_peek_nil.bind .pure
    | cons t more =>
      have other : ¬ some t.kind = some .procedureWord :=
        fun same => stop t rfl (Option.some.inj same)
      refine takes_peek.bind ?_
      rw [if_neg other]
      exact .pure
  | cons first rest ih =>
    obtain ⟨fuel, rfl⟩ : ∃ spare, fuel = spare + 1 := ⟨fuel - 1, by omega⟩
    rw [List.flatMap_cons, List.append_assoc]
    refine takes_peek.bind ((takes_procedure first (filled first (by simp))).bind ?_)
    exact (ih (by simpa using enough) fun procedure member =>
      filled procedure (by simp [member])).bind .pure

end Parser

variable {p : Program} {text : String}

/-- A text in which the tokens of a program are laid out, and then others that start no procedure, is
read as that program. -/
theorem Parser.program_of_laid_before {more : List Token}
    (clear : ∀ t ∈ p.tokens ++ more, t.unmistakable = true)
    (laid : Laid (p.tokens ++ more) text.toList)
    (filled : ∀ procedure ∈ p.procedures, ∀ s ∈ procedure.body, s.Throughout Stmt.filled)
    (stop : ∀ t ∈ more.head?, t.kind ≠ .procedureWord)
    : ∃ stop, Parser.program (.start text) = .ok p stop := by
  have kept : (ParserState.start text).rest = text.toList := laid.filter_newline clear
  have ahead := ParserState.ahead_advance (s := .start text) (kept ▸ laid) clear
  have enough : p.procedures.length < (ParserState.start text).advance.budget := by
    have := p.length_le_tokens
    have short := ahead.length_le
    rw [List.length_append] at short
    omega
  obtain ⟨stop, given, _⟩ := Parser.takes_procedures p.procedures enough filled stop _ ahead
  refine ⟨stop, ?_⟩
  simp only [Parser.program, Bind.bind, EStateM.bind, modify, modifyGet, MonadStateOf.modifyGet,
    EStateM.modifyGet, get, getThe, MonadStateOf.get, EStateM.get, given]
  rfl

/-- A text in which the tokens of a program are laid out is read as that program. -/
theorem Parser.program_of_laid
    (clear : ∀ t ∈ p.tokens, t.unmistakable = true) (laid : Laid p.tokens text.toList)
    (filled : ∀ procedure ∈ p.procedures, ∀ s ∈ procedure.body, s.Throughout Stmt.filled)
    : ∃ stop, Parser.program (.start text) = .ok p stop := by
  have alone : Laid (p.tokens ++ []) text.toList := by simpa using laid
  exact Parser.program_of_laid_before (by simpa using clear) alone filled (by simp)

end Program

/-- A printed program is read back, whatever white space stands between its tokens. Its tree numbers
the statements from one on in the order of the text, and all nodes of an assignment carry the number
of the assignment. -/
theorem Analysis.ofText_of_printed {p : Program} {text : String}
    (clear : ∀ t ∈ p.tokens, t.unmistakable = true)
    (filled : ∀ entry ∈ p.listing, entry.2.filled = true)
    (acyclic : ∀ name, ¬ Relation.TransGen p.Calls name name)
    (printed : Laid p.tokens text.toList)
    : ∃ a, Analysis.ofText text = .ok a
      ∧ a.program = p
      ∧ ∀ title,
          (a.program.toTree title).statementNodes.map Tree.line?
            = (List.range' 1 p.size).map (fun (n : Nat) => some (n : Int))
          ∧ ∀ t ∈ (a.program.toTree title).nodes, t.label? = some "ASSIGN" →
              ∀ u ∈ t.nodes, u.line? = t.line? := by
  have throughout : ∀ procedure ∈ p.procedures, ∀ s ∈ procedure.body, s.Throughout Stmt.filled := by
    intro procedure declared s inBody t within
    obtain ⟨line, listed⟩ := Program.exists_line_iff.mpr ⟨procedure, declared, s, inBody, within⟩
    exact filled (line, t) listed
  obtain ⟨stop, read⟩ := Parser.program_of_laid clear printed throughout
  have lists : p.Lists p.callGrid.called? := by
    intro name _
    obtain ⟨called, found⟩ := Program.exists_called? acyclic name
    exact ⟨called, found, (Program.called?_exact found).2⟩
  obtain ⟨knowledge, known⟩ := KnowledgeBase.exists_ofProgram? lists
  refine ⟨⟨p, stop, knowledge⟩, by simp only [Analysis.ofText, read, known], rfl, fun title => ?_⟩
  exact ⟨p.lines_of_statementNodes title, fun t member assignment u below =>
    p.line_of_assignment title member assignment below⟩

set_option maxRecDepth 10000 in
/-- A product of a difference, a difference on the right of another one, a loop, and a call of a
procedure that comes later. -/
theorem Analysis.ofText_of_printed_grouping
    : ∃ a, Analysis.ofText (" procedure Main \x7b while go \x7b call Sub ; \x7d \x7d procedure Sub"
          ++ " \x7b x = ( a - 1 ) * b - ( c - d ) ; \x7d") = .ok a
      ∧ a.program = ⟨[⟨"Main", [.loop "go" [.call "Sub"]]⟩, ⟨"Sub", [.assign "x"
          (.binary .minus (.binary .times (.binary .minus (.name "a") (.literal "1")) (.name "b"))
            (.binary .minus (.name "c") (.name "d")))]⟩]⟩ := by
  generalize source : (⟨[⟨"Main", _⟩, ⟨"Sub", _⟩]⟩ : Program) = p
  have calls {caller callee : String} (call : p.Calls caller callee)
      : caller = "Main" ∧ callee = "Sub" := by
    rw [← Program.mem_columnsOf_callGrid] at call
    have row := Grid.mem_rowNames_of_mem_columnsOf call
    subst source
    obtain rfl := List.mem_singleton.mp row
    exact ⟨rfl, List.mem_singleton.mp call⟩
  have acyclic (name : String) : ¬ Relation.TransGen p.Calls name name := by
    intro cycle
    obtain ⟨_, first, _⟩ := Relation.TransGen.head'_iff.mp cycle
    obtain ⟨_, _, last⟩ := Relation.TransGen.tail'_iff.mp cycle
    have clash := (calls first).1.symm.trans (calls last).2
    revert clash
    decide
  have printed := Laid.spaces p.tokens
  rw [← @String.toList_ofList (p.tokens.flatMap _)] at printed
  subst source
  obtain ⟨a, accepted, same, _⟩ :=
    Analysis.ofText_of_printed (by decide) (by decide) acyclic printed
  refine ⟨a, (congrArg Analysis.ofText ?_).trans accepted, same⟩
  decide

end ProgramQuery

import ProgramQuery.Proofs.Expression.Texts
import ProgramQuery.Proofs.Query.RoundTrip

/-! An expression means the same on the right of an assignment and in the pattern of a query. The only
texts that one parser takes and the other does not are those in which an operand is missing.
-/

namespace ProgramQuery

open Text

def assigning (e : Expr) : Program :=
  ⟨[⟨"p", [.assign "x" e]⟩]⟩

def queryTree (t : Tree) : Tree :=
  .node "QUERY" "query" 0
    [.node "RESULT" "" 0 [.leaf "ASSIGN" "a"],
      .node "PATTERN" "" 0
        [.node "PATTERN_ASSIGN" "" 0
          [.leaf "ASSIGN" "a", .leaf "EVERYTHING" "_", .node "EVERYTHING" "_" 0 [t]]]]

/-- A run gives a value as it should be, or there is a reason for its failure. -/
inductive Settles {ε σ α : Type} (failed : Prop) (post : α → σ → Prop)
    : EStateM.Result ε σ α → Prop
  | ok {a : α} {s : σ} (holds : post a s) : Settles failed post (.ok a s)
  | error {failure : ε} {s : σ} (why : failed) : Settles failed post (.error failure s)

variable {α β : Type} {failed : Prop}

theorem Settles.mono {ε σ : Type} {post weaker : α → σ → Prop} {result : EStateM.Result ε σ α}
    (settles : Settles failed post result) (implies : ∀ a s, post a s → weaker a s)
    : Settles failed weaker result := by
  cases settles with
  | ok holds => exact .ok (implies _ _ holds)
  | error why => exact .error why

theorem Settles.of_eq {ε σ : Type} {post : α → σ → Prop} {result : EStateM.Result ε σ α} {a : α}
    {s : σ} (given : result = .ok a s) (holds : post a s)
    : Settles failed post result :=
  given ▸ .ok holds

namespace Program.Parser

variable {m : Parser α} {f : α → Parser β} {s : ParserState} {post : β → ParserState → Prop}

theorem settles_bind (first : Settles failed (fun a s' => Settles failed post (f a s')) (m s))
    : Settles failed post ((m >>= f) s) := by
  simp only [Bind.bind, EStateM.bind]
  cases result : m s with
  | ok a s' =>
    rw [result] at first
    cases first with
    | ok holds => exact holds
  | error _ _ =>
    rw [result] at first
    cases first with
    | error why => exact .error why

end Program.Parser

namespace Query.Parser

variable {m : Parser α} {f : α → Parser β} {scope : Scope} {s : ParserState}
  {post : β → ParserState → Prop}

theorem settles_bind
    (first : Settles failed (fun a s' => Settles failed post (f a scope s')) (m scope s))
    : Settles failed post ((m >>= f) scope s) := by
  simp only [Bind.bind, ReaderT.bind, EStateM.bind]
  cases result : m scope s with
  | ok a s' =>
    rw [result] at first
    cases first with
    | ok holds => exact holds
  | error _ _ =>
    rw [result] at first
    cases first with
    | error why => exact .error why

theorem Takes.settles_bind {a : α} {last last' : Option Token} {before after : Frame × List Token}
    (takes : Takes scope m last before a last' after) (here : s.At last before)
    (then_ : ∀ s', s'.At last' after → Settles failed post (f a scope s'))
    : Settles failed post ((m >>= f) scope s) := by
  obtain ⟨s', given, there⟩ := takes s here
  refine Parser.settles_bind ?_
  rw [given]
  exact .ok (then_ s' there)

end Query.Parser

namespace Program.Parser

variable {marks : List Mark} {s : ParserState} {good : Expr → Prop}

/-- A part of an expression has been read, and if that is the whole of it then it is as it should be. -/
def Ended (failed : Prop) (good : Expr → Prop) (e : Expr) (s : ParserState) : Prop :=
  ∃ rest : List Mark, s.Faces (rest.map Mark.token ++ closingTokens)
    ∧ (rest = [] → good e) ∧ (rest ≠ [] → failed)

theorem settles_assignment
    (faces : s.Faces (⟨.name, "x"⟩ :: TokenKind.assign.token
      :: (marks.map Mark.token ++ closingTokens)))
    (inner : ∀ s : ParserState, s.Faces (marks.map Mark.token ++ closingTokens) →
      Settles failed (Ended failed good) (expression s))
    : Settles failed (fun st s' => ∃ e, st = .assign "x" e ∧ good e
        ∧ s'.Faces [TokenKind.closeBracket.token]) (assignment s) := by
  have name : s.next.kind? = some .name := faces.kind
  have text : s.next.text = "x" := by
    rw [faces.1]
    rfl
  have sign : s.shifted.next.kind? = some .assign := faces.shifted.kind
  unfold assignment
  rw [expect_bind name, word_bind sign, text]
  refine settles_bind ((inner _ faces.shifted.shifted).mono fun e s' ended => ?_)
  obtain ⟨rest, faces, whole, partly⟩ := ended
  cases rest with
  | nil =>
    have semicolon : s'.next.kind? = some .semicolon := faces.kind
    rw [word_bind semicolon]
    exact .ok ⟨e, rfl, whole rfl, faces.shifted⟩
  | cons m rest =>
    have other : s'.next.kind? ≠ some .semicolon := by
      rw [faces.kind]
      cases m <;> exact fun same => by cases same
    rw [word_bind_error other]
    exact .error (partly nofun)

theorem settles_statementWith {lists : Parser (List Stmt)}
    (faces : s.Faces (⟨.name, "x"⟩ :: TokenKind.assign.token
      :: (marks.map Mark.token ++ closingTokens)))
    (inner : ∀ s : ParserState, s.Faces (marks.map Mark.token ++ closingTokens) →
      Settles failed (Ended failed good) (expression s))
    : Settles failed (fun st s' => ∃ e, st = .assign "x" e ∧ good e
        ∧ s'.Faces [TokenKind.closeBracket.token]) (statementWith lists s) := by
  let counted : ParserState := { s with line := s.line + 1 }
  have faces : counted.Faces (⟨.name, "x"⟩ :: TokenKind.assign.token
      :: (marks.map Mark.token ++ closingTokens)) := faces
  have kind : counted.next.kind? = some .name := faces.kind
  have moved {k : PUnit → Parser Stmt}
      : ((modify fun s => { s with line := s.line + 1 }) >>= k) s = k ⟨⟩ counted := rfl
  rw [statementWith, moved, peek_bind, kind]
  exact settles_assignment faces inner

theorem settles_statements
    (faces : s.Faces (⟨.name, "x"⟩ :: TokenKind.assign.token
      :: (marks.map Mark.token ++ closingTokens)))
    (inner : ∀ s : ParserState, s.Faces (marks.map Mark.token ++ closingTokens) →
      Settles failed (Ended failed good) (expression s))
    : Settles failed (fun body s' => ∃ e, body = [.assign "x" e] ∧ good e
        ∧ s'.Faces [TokenKind.closeBracket.token]) (statements s) := by
  have kind : s.next.kind? = some .name := faces.kind
  unfold statements ParserState.budget statementsWithin statementsFrom
  rw [peek_bind, kind]
  refine settles_bind ((settles_statementWith faces inner).mono fun st s' found => ?_)
  obtain ⟨e, rfl, holds, faces⟩ := found
  have bracket : s'.next.kind? = some .closeBracket := faces.kind
  have rest {fuel : Nat} {before : Option Stmt} {statement : Parser Stmt}
      : statementsFrom statement (fuel + 1) before s' = .ok [] s' := by
    unfold statementsFrom
    rw [peek_bind, bracket]
    rfl
  change Settles _ _ ((statementsFrom _ _ (some (.assign "x" e)) >>= fun rest =>
    pure (.assign "x" e :: rest)) s')
  refine settles_bind ?_
  rw [rest]
  exact .ok (.ok ⟨e, rfl, holds, faces⟩)

/-- A program with one assignment is read if the expression ends where the assignment does. -/
theorem settles_program
    (faces : s.advance.Faces (openingTokens ++ (marks.map Mark.token ++ closingTokens)))
    (inner : ∀ s : ParserState, s.Faces (marks.map Mark.token ++ closingTokens) →
      Settles failed (Ended failed good) (expression s))
    : Settles failed (fun p _ => ∃ e, p = assigning e ∧ good e) (program s) := by
  have word : s.advance.next.kind? = some .procedureWord := faces.kind
  have name : s.advance.shifted.next.kind? = some .name := faces.shifted.kind
  have text : s.advance.shifted.next.text = "p" := by
    rw [faces.shifted.1]
    rfl
  have bracket : s.advance.shifted.shifted.next.kind? = some .openBracket :=
    faces.shifted.shifted.kind
  have procedure : Settles failed (fun procedure s' => ∃ e, procedure = ⟨"p", [.assign "x" e]⟩
      ∧ good e ∧ s'.Faces []) (procedure s.advance) := by
    unfold Parser.procedure
    rw [word_bind word, expect_bind name, word_bind bracket, text]
    refine settles_bind ((settles_statements faces.shifted.shifted.shifted inner).mono ?_)
    rintro _ s' ⟨e, rfl, holds, faces⟩
    have closing : s'.next.kind? = some .closeBracket := faces.kind
    rw [word_bind closing]
    exact .ok ⟨e, rfl, holds, faces.shifted⟩
  have procedures : Settles failed (fun listed _ => ∃ e, listed = [⟨"p", [.assign "x" e]⟩] ∧ good e)
      (procedures s.advance.budget s.advance) := by
    unfold ParserState.budget Parser.procedures
    rw [peek_bind, word, if_pos rfl]
    refine settles_bind (procedure.mono ?_)
    rintro _ s' ⟨e, rfl, holds, nothing⟩
    have next : s'.next.kind? = none := by
      rw [show s'.next = .nothing from nothing]
      rfl
    have rest {fuel : Nat} : Parser.procedures (fuel + 1) s' = .ok [] s' := by
      unfold Parser.procedures
      rw [peek_bind, next]
      rfl
    refine settles_bind ?_
    rw [rest]
    exact .ok (.ok ⟨e, rfl, holds⟩)
  change Settles _ _ ((Parser.procedures s.advance.budget >>= fun listed =>
    (pure (Program.mk listed) : Parser Program)) s.advance)
  refine settles_bind (procedures.mono ?_)
  rintro _ s' ⟨e, rfl, holds⟩
  exact .ok ⟨e, rfl, holds⟩

end Program.Parser

namespace Query.Parser

variable {marks : List Mark} {scope : Scope} {frame : Frame} {s : ParserState} {last : Option Token}
  {good : Tree → Prop}

def Ended (failed : Prop) (frame : Frame) (good : Tree → Prop) (t : Tree) (s : ParserState) : Prop :=
  ∃ rest : List Mark, s.Reads frame rest ∧ (rest = [] → good t) ∧ (rest ≠ [] → failed)

theorem settles_closed (inner : Settles failed (Ended failed frame good) (expression scope s))
    : Settles failed (fun e s' => good e ∧ ∃ last, s'.At last (frame,
        [TokenKind.everything.token, TokenKind.closeParenthesis.token]))
        ((do let e ← expression; expect .quote; return e : Parser Tree) scope s) := by
  refine Parser.settles_bind (inner.mono fun e s' ended => ?_)
  obtain ⟨rest, reads, whole, partly⟩ := ended
  cases rest with
  | nil =>
    rw [expect_bind (titleOf_next_nil reads)]
    obtain ⟨last, here⟩ := reads.place
    exact .ok ⟨whole rfl, _, here.shift⟩
  | cons m rest =>
    have other : titleOf s'.next ≠ TokenKind.quote.title := by
      rw [titleOf_next reads]
      intro same
      have := TokenKind.title_injective same
      cases m <;> cases this
    rw [expect_bind_error other]
    exact .error (partly nofun)

theorem settles_rightHandSide (spelled : ∀ m ∈ marks, m.isSpelled = true)
    (here : s.At last (frame, TokenKind.everything.token :: TokenKind.quote.token
      :: (marks.map markToken ++ closingTokens)))
    (inner : ∀ s : ParserState, s.Reads frame marks →
      Settles failed (Ended failed frame good) (expression scope s))
    : Settles failed (fun t s' => ∃ e, t = .node "EVERYTHING" "_" 0 [e] ∧ good e
        ∧ ∃ last, s'.At last (frame, [TokenKind.closeParenthesis.token]))
        (rightHandSide scope s) := by
  refine takes_peek.settles_bind here fun s here => takes_shift.settles_bind here fun s here => ?_
  refine (takes_takenLeaf fun s here => here.taken.plainText_eq).settles_bind here fun s here => ?_
  refine takes_peek.settles_bind here fun s here => ?_
  refine Parser.settles_bind (takes_expect.settles_bind here fun s here => ?_)
  refine (settles_closed (inner s ⟨spelled, _, here⟩)).mono ?_
  rintro e s' ⟨holds, last, here⟩
  exact takes_expect.settles_bind here fun s here => .ok ⟨e, rfl, holds, _, here⟩

theorem settles_patternCond (spelled : ∀ m ∈ marks, m.isSpelled = true)
    (holds : Holds assignments frame)
    (here : s.At last (frame, synonymToken "a" :: TokenKind.openParenthesis.token
      :: TokenKind.everything.token :: TokenKind.comma.token :: TokenKind.everything.token
      :: TokenKind.quote.token :: (marks.map markToken ++ closingTokens)))
    (inner : ∀ s : ParserState, s.Reads frame marks →
      Settles failed (Ended failed frame good) (expression scope s))
    : Settles failed (fun t s' => ∃ e, t = .node "PATTERN_ASSIGN" "" 0
          [.leaf "ASSIGN" "a", .leaf "EVERYTHING" "_", .node "EVERYTHING" "_" 0 [e]] ∧ good e
        ∧ ∃ last, s'.At last (frame, []))
        (patternCond scope s) := by
  refine takes_peek.settles_bind here fun s here => ?_
  have found : assignments.typeOf? "a" = some .assignment := rfl
  refine (holds.typed found).settles_bind here fun s here => ?_
  have name : plainText s.prev = "a" := here.taken.plainText_eq.trans (trim_of_isSynonym (by decide))
  have fits : assignments.FitsVariable scope .anything := trivial
  change Settles _ _ ((expect .openParenthesis >>= fun _ => do
    let target ← varRef
    expect .comma
    let value ← rightHandSide
    expect .closeParenthesis
    patternNode "PATTERN_ASSIGN" "ASSIGN" (plainText s.prev) [target, value]) scope s)
  rw [name]
  refine takes_expect.settles_bind here fun s here => ?_
  refine (takes_varRef holds fits).settles_bind here fun s here => ?_
  refine takes_expect.settles_bind here fun s here => ?_
  refine Parser.settles_bind ((settles_rightHandSide spelled here inner).mono ?_)
  rintro _ s' ⟨e, rfl, holds, last, here⟩
  exact takes_expect.settles_bind here fun s here => .ok ⟨e, rfl, holds, _, here⟩

theorem settles_clauses (spelled : ∀ m ∈ marks, m.isSpelled = true)
    (holds : Holds assignments frame)
    (here : s.At last (frame, TokenKind.pattern.token :: synonymToken "a"
      :: TokenKind.openParenthesis.token :: TokenKind.everything.token :: TokenKind.comma.token
      :: TokenKind.everything.token :: TokenKind.quote.token
      :: (marks.map markToken ++ closingTokens)))
    (inner : ∀ s : ParserState, s.Reads frame marks →
      Settles failed (Ended failed frame good) (expression scope s))
    : Settles failed (fun found s' => ∃ e, found = ⟨[], [.node "PATTERN_ASSIGN" "" 0
          [.leaf "ASSIGN" "a", .leaf "EVERYTHING" "_", .node "EVERYTHING" "_" 0 [e]]], []⟩ ∧ good e
        ∧ ∃ last, s'.At last (frame, []))
        (clauses s.budget {} scope s) := by
  unfold ParserState.budget clauses
  refine takes_peek.settles_bind here fun s here => takes_shift.settles_bind here fun s here => ?_
  have conditions : Settles failed (fun listed s' => ∃ e, listed = [.node "PATTERN_ASSIGN" "" 0
        [.leaf "ASSIGN" "a", .leaf "EVERYTHING" "_", .node "EVERYTHING" "_" 0 [e]]] ∧ good e
      ∧ ∃ last, s'.At last (frame, [])) (patternClause scope s) := by
    change Settles _ _ (joined patternCond (s.rest.length + 3) scope s)
    unfold joined
    refine Parser.settles_bind ((settles_patternCond spelled holds here inner).mono ?_)
    rintro _ s' ⟨e, rfl, holds, last, here⟩
    exact takes_look.settles_bind here fun s here => .ok ⟨e, rfl, holds, last, here⟩
  refine Parser.settles_bind (conditions.mono ?_)
  rintro _ s' ⟨e, rfl, holds, last, here⟩
  unfold clauses
  exact takes_look.settles_bind here fun s here => .ok ⟨e, rfl, holds, last, here⟩

def patternFrame : Frame :=
  ⟨[("a", some "ASSIGN")], TokenKind.name.title, [.node "RESULT" "" 0 [.leaf "ASSIGN" "a"]]⟩

/-- A query with one pattern is read if the expression ends where the quotes do. -/
theorem settles_selectClause (spelled : ∀ m ∈ marks, m.isSpelled = true)
    (here : s.At none (⟨[], "", []⟩, openingTokens ++ (TokenKind.quote.token
      :: (marks.map markToken ++ closingTokens))))
    (inner : ∀ s : ParserState, s.Reads patternFrame marks →
      Settles failed (Ended failed patternFrame good) (expression scope s))
    : Settles failed (fun _ stop => ∃ e, stop.tree = queryTree e ∧ good e)
        (selectClause scope s) := by
  have declared {more : List Token}
      : Takes scope designEntity none (⟨[], "", []⟩, ⟨.declaration, "assign"⟩ :: synonymToken "a"
          :: TokenKind.semicolon.token :: TokenKind.select.token :: more) () none
        (⟨[("a", some "ASSIGN")], "", []⟩, TokenKind.select.token :: more) := by
    refine .of_budget fun fuel enough => ?_
    have enough : 1 < fuel := by
      simp only [List.length_cons] at enough
      omega
    exact @takes_declarations _ _ _ _ assignments.declarations (by decide) (by decide) _ enough
  have known : ∀ x ∈ assignments.selected, ∃ type, assignments.typeOf? x = some type := by
    rintro x ⟨rfl⟩
    exact ⟨.assignment, rfl⟩
  have holds {selected : String} {parts : List Tree}
      : Holds assignments ⟨[("a", some "ASSIGN")], selected, parts⟩ :=
    @WellFormed.holds scope _ ⟨by decide, by decide, known, nofun⟩ _ rfl
  refine declared.settles_bind here fun s here => ?_
  refine takes_expect.settles_bind here fun s here => ?_
  refine (takes_selection holds known).settles_bind here fun s here => ?_
  refine takes_addParts.settles_bind here fun s here => ?_
  have here : s.At none (patternFrame, _) := here
  change Settles _ _ ((clauses s.budget {} >>= fun found => addParts (clauseNode "WITH" found.withs
    ++ clauseNode "PATTERN" found.patterns ++ clauseNode "SUCH_THAT" found.relations)) scope s)
  refine Parser.settles_bind ((settles_clauses spelled holds here inner).mono ?_)
  rintro _ s' ⟨e, rfl, good, last, here⟩
  obtain ⟨stop, given, there⟩ := takes_addParts s' here
  rw [given]
  refine .ok ⟨e, ?_, good⟩
  rw [ParserState.tree, there.parts]
  rfl

end Query.Parser

theorem Expr.toTree_injective {e e' : Expr} (same : e.toTree 0 = e'.toTree 0) : e = e' := by
  induction e generalizing e' with
  | name x =>
    cases e' with
    | name _ => simpa [Expr.toTree] using same
    | literal _ => simp [Expr.toTree] at same
    | binary _ _ _ => simp [Expr.toTree] at same
  | literal digits =>
    cases e' with
    | name _ => simp [Expr.toTree] at same
    | literal _ => simpa [Expr.toTree] using same
    | binary _ _ _ => simp [Expr.toTree] at same
  | binary op left right ihLeft ihRight =>
    cases e' with
    | name _ => simp [Expr.toTree] at same
    | literal _ => simp [Expr.toTree] at same
    | binary op' left' right' =>
      simp only [Expr.toTree, Tree.node.injEq, List.cons.injEq, and_true, true_and] at same
      obtain ⟨label, -, left, right⟩ := same
      have op : op = op' := by
        revert label
        cases op <;> cases op' <;> decide
      rw [op, ihLeft left, ihRight right]

/-- The tree of an expression is complete. -/
theorem Expr.not_lacks (e : Expr) : ¬ (e.toTree 0).Lacks := by
  induction e with
  | name x => exact fun lacks => by cases lacks with | inside member _ => cases member
  | literal digits => exact fun lacks => by cases lacks with | inside member _ => cases member
  | binary op left right ihLeft ihRight =>
    intro lacks
    cases lacks with
    | inside member lacks =>
      simp only [List.mem_cons, List.not_mem_nil, or_false] at member
      rcases member with rfl | rfl
      · exact ihLeft lacks
      · exact ihRight lacks

section Agreement

variable {pieces : List Piece} {scope : Query.Scope}

theorem filter_newline {cs : List Char} (single : ∀ c ∈ cs, (c != '\n') = true)
    : (String.ofList cs).toList.filter (· != '\n') = cs := by
  rw [String.toList_ofList]
  exact List.filter_eq_self.mpr single

/-- Neither an expression nor what stands around it has a line break. -/
theorem Written.single_line (written : Written pieces) (after : Nat) {opening closing : List Char}
    (before : opening.all (· != '\n') = true) (behind : closing.all (· != '\n') = true)
    : ∀ c ∈ opening ++ (Piece.textOf pieces after ++ closing), (c != '\n') = true := by
  have space {n : Nat} : ∀ c ∈ List.replicate n ' ', (c != '\n') = true := by
    intro c member
    rw [List.eq_of_mem_replicate member]
    decide
  simp only [Piece.textOf, List.forall_mem_append, List.forall_mem_flatMap, Piece.chars]
  refine ⟨List.all_eq_true.mp before, ⟨fun p member => ⟨space, fun c member' => ?_⟩, space⟩,
    List.all_eq_true.mp behind⟩
  have solid := Mark.chars_solid (written.spelled p member) c member'
  rw [bne_iff_ne]
  rintro rfl
  exact absurd solid (by decide)

/-- The marks are an expression of the program. -/
def Program.Complete (marks : List Mark) (e : Expr) : Prop :=
  ∃ s s' : ParserState, s.Faces (marks.map Mark.token ++ closingTokens)
    ∧ Parser.expression s = .ok e s' ∧ s'.next.kind? = some .semicolon

def Program.Broken (marks : List Mark) : Prop :=
  ∃ s : ParserState, s.Faces (marks.map Mark.token ++ closingTokens)
    ∧ ∀ e s', Parser.expression s = .ok e s' → s'.next.kind? ≠ some .semicolon

/-- The marks are read as an expression of a query. -/
def Query.Complete (scope : Scope) (marks : List Mark) (t : Tree) : Prop :=
  ∃ s s' : ParserState, s.Reads Parser.patternFrame marks
    ∧ Parser.expression scope s = .ok t s' ∧ s'.next.map (·.kind) = some .quote

def Query.Broken (scope : Scope) (marks : List Mark) : Prop :=
  ∃ s : ParserState, s.Reads Parser.patternFrame marks
    ∧ ∀ t s', Parser.expression scope s = .ok t s' → s'.next.map (·.kind) ≠ some .quote

theorem Query.Parser.queryText_start (text : String)
    : queryText text scope (.start [])
      = selectClause scope ((ParserState.start []).reopen text).advance :=
  rfl

/-- The parser of queries stands before the tokens of a text. -/
theorem Query.ParserState.at_start {text : List Char} {tokens : List Token}
    (single : ∀ c ∈ text, (c != '\n') = true) (lexes : Lexes text tokens)
    : ((ParserState.start []).reopen (String.ofList text)).advance.At none (⟨[], "", []⟩, tokens) := by
  obtain ⟨declarations, selected, parts, -⟩ :=
    ((ParserState.start []).reopen (String.ofList text)).advance_kept
  refine ⟨declarations, selected, parts, nofun, ParserState.ahead_advance nofun ?_⟩
  rw [ParserState.reopen, filter_newline single]
  exact lexes

theorem Query.exists_reads (written : Written pieces)
    : ∃ s : ParserState, s.Reads Parser.patternFrame (pieces.map (·.mark)) := by
  have lexes := Query.lexes_pieces written (Query.ending_quote 0) (Query.lexes_closing 0)
  let frame := Parser.patternFrame
  let s : ParserState :=
    ⟨pieces.flatMap Piece.chars ++ (List.replicate 0 ' ' ++ "\"_)".toList), 0, none, none,
      frame.declarations, frame.selected, frame.parts⟩
  obtain ⟨declarations, selected, parts, -⟩ := s.advance_kept
  refine ⟨s.advance, by simpa using written.spelled, none, declarations, selected, parts, nofun, ?_⟩
  exact ParserState.ahead_advance nofun lexes

theorem Together.ends {frame : Query.Frame} {marks : List Mark} {ps : Program.ParserState}
    {qs : Query.ParserState} (together : Together frame marks ps qs)
    : ps.next.kind? = some .semicolon ↔ qs.next.map (·.kind) = some .quote := by
  cases marks with
  | nil => exact iff_of_true together.program.kind together.query.kind_nil
  | cons m marks =>
    rw [together.program.kind, together.query.kind]
    cases m <;> exact iff_of_false (fun same => by cases same) fun same => by cases same

theorem Program.settles_assignmentText (written : Written pieces) (after : Nat)
    : Settles (Broken (pieces.map (·.mark)))
        (fun p _ => ∃ e, p = assigning e ∧ Complete (pieces.map (·.mark)) e)
        (Parser.program (.start (assignmentText (Piece.textOf pieces after)))) := by
  have lexes := Program.lexes_assignmentText written after
  rw [← filter_newline (written.single_line after (by decide) (by decide))] at lexes
  refine Parser.settles_program (ParserState.faces_advance lexes) fun s faces => ?_
  obtain ⟨qs, reads⟩ := Query.exists_reads written
  have alike := @alike_expression _ _ s qs ⟨[], [], 0⟩ ⟨faces, reads⟩
  cases left : Parser.expression s with
  | error _ _ => exact .error ⟨s, faces, fun e s' given => by rw [left] at given; cases given⟩
  | ok e s' =>
    have broken (other : s'.next.kind? ≠ some .semicolon) : Broken (pieces.map (·.mark)) := by
      refine ⟨s, faces, fun _ _ given => ?_⟩
      rw [left] at given
      cases given
      exact other
    cases right : Query.Parser.expression ⟨[], [], 0⟩ qs with
    | error _ _ => simp [left, right, ReadAlike] at alike
    | ok t qs' =>
      rw [left, right] at alike
      obtain ⟨-, rest, -, together⟩ := alike
      refine .ok ⟨rest, together.program, ?_, fun more => broken ?_⟩
      · rintro rfl
        exact ⟨s, s', faces, left, together.program.kind⟩
      · cases rest with
        | nil => exact absurd rfl more
        | cons m rest =>
          rw [together.program.kind]
          cases m <;> exact fun same => by cases same

def Query.naming (x : String) : Query :=
  { assignments with clauses := [.pattern [.assignment "a" .anything (.part (.name x))]] }

theorem Query.naming_wellFormed {x : String} (synonym : isSynonym x = true)
    : (naming x).WellFormed scope := by
  have distinct : (assignments.declarations.flatMap Declaration.names).Nodup := by decide
  have synonyms : ∀ d ∈ assignments.declarations, ∀ x ∈ d.names, isSynonym x = true := by
    decide
  refine ⟨synonyms, distinct, ?_, ?_⟩
  · rintro y ⟨rfl⟩
    exact ⟨.assignment, rfl⟩
  · refine List.forall_mem_singleton.mpr ⟨nofun, List.forall_mem_singleton.mpr ⟨rfl, trivial, ?_⟩⟩
    obtain ⟨c, ds, heading, letter, digits⟩ := isSynonym_iff.mp synonym
    refine isQuotable_iff.mpr ⟨c, ds, heading, letter, fun d member => ?_⟩
    simp [isNameChar, isLetterOrDigit, digits d member]

theorem Query.complete_name {x : String} (synonym : isSynonym x = true)
    : Complete scope [.name x] (.leaf "NAME" x) := by
  have written : Written [⟨0, .name x⟩] := ⟨List.forall_mem_singleton.mpr synonym, by simp⟩
  obtain ⟨s, reads⟩ := Query.exists_reads written
  obtain ⟨last, here⟩ := reads.place
  have spelled : IsSpelled (.name x) := ⟨List.forall_mem_singleton.mpr synonym, nofun⟩
  have closes : Parser.Closes closingTokens := by
    rintro t ⟨rfl⟩
    exact ⟨rfl, rfl⟩
  obtain ⟨s', given, there⟩ := Parser.takes_expression (.name x) spelled closes s here
  have reads' : s'.Reads Parser.patternFrame [] := ⟨nofun, none, there⟩
  exact ⟨s, s', reads, given, reads'.kind_nil⟩

/-- A name alone is read together with its quotes and gives the same tree. -/
theorem Query.settles_quotedName {x : String} (synonym : isSynonym x = true)
    : Settles failed (fun _ stop => stop.tree = queryTree (.leaf "NAME" x))
        (Parser.queryText (patternText (Piece.textOf [⟨0, .name x⟩] 0)) scope (.start [])) := by
  obtain ⟨frame, takes, tree⟩ := Parser.takes_selectClause (@naming_wellFormed scope x synonym)
  have written : Written [⟨0, .name x⟩] := ⟨List.forall_mem_singleton.mpr synonym, by simp⟩
  have lexes : Lexes _ (naming x).tokens := Query.lexes_opening (Query.lexes_quotedName synonym)
  have here := ParserState.at_start (written.single_line 0 (by decide) (by decide)) lexes
  obtain ⟨stop, given, there⟩ := takes _ here
  refine .of_eq ((Parser.queryText_start _).trans given) ?_
  rw [ParserState.tree, there.parts, tree]
  rfl

theorem Query.settles_patternText (written : Written pieces) (after : Nat)
    : Settles (Broken scope (pieces.map (·.mark)))
        (fun _ stop => ∃ t, stop.tree = queryTree t ∧ Complete scope (pieces.map (·.mark)) t)
        (Parser.queryText (patternText (Piece.textOf pieces after)) scope (.start [])) := by
  have spelled : ∀ m ∈ pieces.map (·.mark), m.isSpelled = true := by
    simpa using written.spelled
  by_cases several : ∀ x, pieces = [⟨0, .name x⟩] → after ≠ 0
  · have lexes := Query.lexes_opening (Query.lexes_quoted written several)
    have here := ParserState.at_start (written.single_line after (by decide) (by decide)) lexes
    refine Parser.settles_selectClause spelled here fun s reads => ?_
    cases result : Parser.expression scope s with
    | error _ _ => exact .error ⟨s, reads, fun t s' given => by rw [result] at given; cases given⟩
    | ok t s' =>
      have broken (other : s'.next.map (·.kind) ≠ some .quote)
          : Broken scope (pieces.map (·.mark)) := by
        refine ⟨s, reads, fun _ _ given => ?_⟩
        rw [result] at given
        cases given
        exact other
      obtain ⟨-, rest, reads'⟩ :=
        Parser.within_expressionWithin s.budget _ s reads t s' result
      refine .ok ⟨rest, reads', ?_, fun more => broken ?_⟩
      · rintro rfl
        exact ⟨s, s', reads, result, reads'.kind_nil⟩
      · cases rest with
        | nil => exact absurd rfl more
        | cons m rest =>
          rw [reads'.kind]
          cases m <;> exact fun same => by cases same
  · obtain ⟨x, rfl, rfl⟩ : ∃ x, pieces = [⟨0, .name x⟩] ∧ after = 0 := by
      simpa using several
    have synonym : isSynonym x = true := spelled (.name x) (by simp)
    exact (Query.settles_quotedName synonym).mono fun _ stop tree =>
      ⟨_, tree, Query.complete_name synonym⟩

variable {marks : List Mark} {e : Expr} {t : Tree}

theorem Program.Complete.tree_eq (complete : Program.Complete marks e)
    (read : Query.Complete scope marks t)
    : t = e.toTree 0 := by
  obtain ⟨ps, ps', faces, left, -⟩ := complete
  obtain ⟨qs, qs', reads, right, -⟩ := read
  have alike := @alike_expression _ _ ps qs scope ⟨faces, reads⟩
  rw [left, right] at alike
  exact alike.1

theorem Program.Complete.not_broken (complete : Program.Complete marks e)
    : ¬ Query.Broken scope marks := by
  rintro ⟨qs, reads, unread⟩
  obtain ⟨ps, ps', faces, left, ends⟩ := complete
  have alike := @alike_expression _ _ ps qs scope ⟨faces, reads⟩
  cases right : Query.Parser.expression scope qs with
  | error _ _ => simp [left, right, ReadAlike] at alike
  | ok t qs' =>
    rw [left, right] at alike
    obtain ⟨-, rest, -, together⟩ := alike
    exact unread t qs' right (together.ends.mp ends)

theorem Program.Broken.lacks (broken : Program.Broken marks) (read : Query.Complete scope marks t)
    : t.Lacks := by
  obtain ⟨ps, faces, unread⟩ := broken
  obtain ⟨qs, qs', reads, right, ends⟩ := read
  have alike := @alike_expression _ _ ps qs scope ⟨faces, reads⟩
  cases left : Program.Parser.expression ps with
  | error _ _ =>
    rw [left, right] at alike
    exact alike.1
  | ok e ps' =>
    rw [left, right] at alike
    obtain ⟨-, rest, -, together⟩ := alike
    exact absurd (together.ends.mpr ends) (unread e ps' left)

theorem Query.Reading.ofText_cases {text : String} {failed : Prop} {good : Tree → Prop}
    (settles : Settles failed (fun _ stop => ∃ t, stop.tree = queryTree t ∧ good t)
      (Parser.queryText text scope (.start [])))
    : (∃ t stop, Reading.ofText scope text = .ok ⟨queryTree t, stop⟩ ∧ good t)
      ∨ (∃ failure, Reading.ofText scope text = .error failure) ∧ failed := by
  unfold Reading.ofText
  generalize Parser.queryText text scope (.start []) = result at settles
  cases settles with
  | @ok _ stop found =>
    obtain ⟨t, tree, holds⟩ := found
    exact .inl ⟨t, stop, by rw [← tree], holds⟩
  | error why => exact .inr ⟨⟨_, rfl⟩, why⟩

theorem queryTree_injective {t t' : Tree} (same : queryTree t = queryTree t') : t = t' := by
  simpa [queryTree] using same

/-- Both parsers read expressions alike. A program that assigns an expression is accepted exactly if
the query for it gets the tree of that expression. Any other tree that a query gets lacks an operand. -/
theorem Written.parsers_agree (written : Written pieces) (after : Nat) (scope : Query.Scope)
    : (∀ e : Expr,
        (∃ stop, Program.Parser.program (.start (assignmentText (Piece.textOf pieces after)))
          = .ok (assigning e) stop)
        ↔ ∃ stop, Query.Reading.ofText scope (patternText (Piece.textOf pieces after))
          = .ok ⟨queryTree (e.toTree 0), stop⟩)
      ∧ (∀ p stop, Program.Parser.program (.start (assignmentText (Piece.textOf pieces after)))
          = .ok p stop → ∃ e, p = assigning e)
      ∧ ∀ reading, Query.Reading.ofText scope (patternText (Piece.textOf pieces after)) = .ok reading →
          ∃ t, reading.tree = queryTree t ∧ ((∃ e : Expr, t = e.toTree 0) ∨ t.Lacks) := by
  have assigned := Program.settles_assignmentText written after
  have read := Query.Reading.ofText_cases (@Query.settles_patternText _ scope written after)
  generalize Program.Parser.program (.start (assignmentText (Piece.textOf pieces after))) = left
    at assigned ⊢
  generalize Query.Reading.ofText scope (patternText (Piece.textOf pieces after)) = right at read ⊢
  cases assigned with
  | ok complete =>
    obtain ⟨e, rfl, complete⟩ := complete
    rcases read with ⟨t, stop, rfl, read⟩ | ⟨-, broken⟩
    · obtain rfl := complete.tree_eq read
      refine ⟨fun e' => ⟨?_, ?_⟩, ?_, ?_⟩
      · rintro ⟨stop, ⟨⟩⟩
        exact ⟨_, rfl⟩
      · rintro ⟨stop, same⟩
        have trees := congrArg Query.Reading.tree (Except.ok.inj same)
        rw [Expr.toTree_injective (queryTree_injective trees)]
        exact ⟨_, rfl⟩
      · rintro _ _ ⟨⟩
        exact ⟨e, rfl⟩
      · rintro _ ⟨⟩
        exact ⟨_, rfl, .inl ⟨e, rfl⟩⟩
    · exact absurd broken complete.not_broken
  | error broken =>
    rcases read with ⟨t, stop, rfl, read⟩ | ⟨⟨failure, rfl⟩, -⟩
    · have lacks := broken.lacks read
      refine ⟨fun e => ⟨nofun, ?_⟩, nofun, ?_⟩
      · rintro ⟨stop, same⟩
        have trees := congrArg Query.Reading.tree (Except.ok.inj same)
        rw [queryTree_injective trees] at lacks
        exact absurd lacks e.not_lacks
      · rintro _ ⟨⟩
        exact ⟨t, rfl, .inr lacks⟩
    · simp

/-- Spaces and parentheses make no difference. -/
theorem Written.parsers_agree_product
    : ∃ pieces : List Piece, String.ofList (Piece.textOf pieces 1) = "( x1+ 2) *y " ∧ Written pieces
      ∧ ∀ scope, (∃ stop, Program.Parser.program (.start (assignmentText (Piece.textOf pieces 1)))
          = .ok (assigning
            (.binary .times (.binary .plus (.name "x1") (.literal "2")) (.name "y"))) stop)
        ↔ ∃ stop, Query.Reading.ofText scope (patternText (Piece.textOf pieces 1))
          = .ok ⟨queryTree (Expr.toTree 0
            (.binary .times (.binary .plus (.name "x1") (.literal "2")) (.name "y"))), stop⟩ := by
  have written : Written [⟨0, .opening⟩, ⟨1, .name "x1"⟩, ⟨0, .plus⟩, ⟨1, .integer "2"⟩, ⟨0, .closing⟩,
      ⟨1, .times⟩, ⟨0, .name "y"⟩] :=
    ⟨forall_mem_of_all (by decide), by simp [Piece.standsApart, Mark.runsInto]⟩
  refine ⟨_, ?_, written, fun scope => ?_⟩
  · decide +kernel
  · have alike := (written.parsers_agree 1 scope).1
    exact alike (.binary .times (.binary .plus (.name "x1") (.literal "2")) (.name "y"))

/-- A query may end with an operator, and a program may not. -/
theorem assignmentText_rejected_operand
    : (∃ failure stop, Program.Parser.program (.start (assignmentText "x+".toList))
        = .error failure stop)
      ∧ ∃ stop, Query.Reading.ofText ⟨["p"], ["x"], 1⟩ (patternText "x+".toList)
        = .ok ⟨queryTree (.node "PLUS" "+" 0 [.leaf "NAME" "x", .missing]), stop⟩ := by
  constructor
  · cases result : Program.Parser.program (.start (assignmentText "x+".toList)) with
    | error failure stop => exact ⟨failure, stop, rfl⟩
    | ok p stop =>
      have evaluated : (match Program.Parser.program (.start (assignmentText "x+".toList)) with
          | .ok _ _ => false
          | .error _ _ => true) = true := by
        decide +kernel
      rw [result] at evaluated
      cases evaluated
  · cases result : Query.Reading.ofText ⟨["p"], ["x"], 1⟩ (patternText "x+".toList) with
    | ok reading =>
      have evaluated : (match Query.Reading.ofText ⟨["p"], ["x"], 1⟩ (patternText "x+".toList) with
          | .ok reading => decide (reading.tree
              = queryTree (.node "PLUS" "+" 0 [.leaf "NAME" "x", .missing]))
          | .error _ => false) = true := by
        decide +kernel
      rw [result] at evaluated
      exact ⟨reading.stop, by rw [← of_decide_eq_true evaluated]⟩
    | error failure =>
      have evaluated : (match Query.Reading.ofText ⟨["p"], ["x"], 1⟩ (patternText "x+".toList) with
          | .ok _ => true
          | .error _ => false) = true := by
        decide +kernel
      rw [result] at evaluated
      cases evaluated

end Agreement

end ProgramQuery

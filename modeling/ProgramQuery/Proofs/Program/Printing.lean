import ProgramQuery.Proofs.Program.ControlFlow

/-! Programs printed as lists of tokens, with parentheses only where an expression needs them, and lists
of tokens laid out as text.
-/

namespace ProgramQuery

open Program Text

def Program.TokenKind.token (kind : TokenKind) : Token :=
  ⟨kind, kind.spelling⟩

/-- An expression where operators of lower levels need parentheses. Operators group to the left, so a
right operand stands one level higher. -/
def Expr.tokens : Expr → Nat → List Token
  | .name x, _ => [⟨.name, x⟩]
  | .literal digits, _ => [⟨.integer, digits⟩]
  | .binary op left right, level =>
    let bare := left.tokens op.level ++ op.kind.token :: right.tokens (op.level + 1)
    if op.level < level then
      TokenKind.openParenthesis.token :: (bare ++ [TokenKind.closeParenthesis.token])
    else
      bare

mutual

def Stmt.tokens : Stmt → List Token
  | .assign target value =>
    ⟨.name, target⟩ :: TokenKind.assign.token :: (value.tokens 0 ++ [TokenKind.semicolon.token])
  | .call callee => [TokenKind.callWord.token, ⟨.name, callee⟩, TokenKind.semicolon.token]
  | .loop condition body =>
    TokenKind.whileWord.token :: ⟨.name, condition⟩ :: TokenKind.openBracket.token
      :: (Stmt.tokensOf body ++ [TokenKind.closeBracket.token])
  | .branch condition thenBody elseBody =>
    TokenKind.ifWord.token :: ⟨.name, condition⟩ :: TokenKind.thenWord.token
      :: TokenKind.openBracket.token
      :: (Stmt.tokensOf thenBody
        ++ TokenKind.closeBracket.token :: TokenKind.elseWord.token :: TokenKind.openBracket.token
          :: (Stmt.tokensOf elseBody ++ [TokenKind.closeBracket.token]))

def Stmt.tokensOf : List Stmt → List Token
  | [] => []
  | s :: rest => s.tokens ++ Stmt.tokensOf rest

end

def Procedure.tokens (procedure : Procedure) : List Token :=
  TokenKind.procedureWord.token :: ⟨.name, procedure.name⟩ :: TokenKind.openBracket.token
    :: (Stmt.tokensOf procedure.body ++ [TokenKind.closeBracket.token])

def Program.tokens (p : Program) : List Token :=
  p.procedures.flatMap Procedure.tokens

theorem Stmt.tokens_eq_cons (s : Stmt)
    : ∃ t more, s.tokens = t :: more ∧ t.kind ≠ .closeBracket := by
  cases s <;> exact ⟨_, _, rfl, nofun⟩

/-- Tokens written out with white space between them, other than newlines. There may be white space
at both ends as well. -/
inductive Laid : List Token → List Char → Prop
  | nil {gap : List Char} (blank : ∀ c ∈ gap, isBlank c ∧ c ≠ '\n') : Laid [] gap
  | cons {t : Token} {more : List Token} {gap rest : List Char}
    (blank : ∀ c ∈ gap, isBlank c ∧ c ≠ '\n') (apart : ∀ c ∈ rest.head?, isBlank c)
    (laid : Laid more rest)
    : Laid (t :: more) (gap ++ (t.text.toList ++ rest))

/-- Only the operators of a level make a difference between it and the next one. -/
theorem Expr.tokens_succ {op : Operator} {level : Nat} (other : op.level ≠ level) (left right : Expr)
    : (Expr.binary op left right).tokens level = (Expr.binary op left right).tokens (level + 1) := by
  have same : op.level < level ↔ op.level < level + 1 := by omega
  simp only [Expr.tokens, same]

/-- How many operators of a level stand on the way to the first operand of that level. -/
def Expr.spine (level : Nat) : Expr → Nat
  | .name _ => 0
  | .literal _ => 0
  | .binary op left _ => if op.level = level then left.spine level + 1 else 0

theorem Expr.spine_lt (level : Nat) (e : Expr) : e.spine level < (e.tokens level).length := by
  induction e with
  | name x => simp [Expr.spine, Expr.tokens]
  | literal digits => simp [Expr.spine, Expr.tokens]
  | binary op left right below _ =>
    by_cases same : op.level = level
    · subst same
      simp only [Expr.spine, if_true, Expr.tokens, Nat.lt_irrefl, if_false, List.length_append,
        List.length_cons]
      omega
    · simp only [Expr.spine, same, if_false, Expr.tokens]
      split <;> simp only [List.length_append, List.length_cons] <;> omega

theorem Stmt.tokensOf_eq (statements : List Stmt)
    : Stmt.tokensOf statements = statements.flatMap Stmt.tokens := by
  induction statements with
  | nil => rfl
  | cons s rest ih => rw [Stmt.tokensOf, ih, List.flatMap_cons]

theorem Stmt.tokens_length_le {s : Stmt} {statements : List Stmt} (member : s ∈ statements)
    : s.tokens.length ≤ (Stmt.tokensOf statements).length := by
  rw [Stmt.tokensOf_eq, List.flatMap_def]
  exact (List.sublist_flatten_of_mem (List.mem_map_of_mem member)).length_le

theorem Stmt.length_le_tokensOf (statements : List Stmt)
    : statements.length ≤ (Stmt.tokensOf statements).length := by
  induction statements with
  | nil => simp
  | cons s rest ih =>
    obtain ⟨t, more, start, _⟩ := s.tokens_eq_cons
    simp only [Stmt.tokensOf, start, List.cons_append, List.length_cons, List.length_append]
    omega

theorem Program.length_le_tokens (p : Program) : p.procedures.length ≤ p.tokens.length := by
  rw [Program.tokens]
  induction p.procedures with
  | nil => simp
  | cons procedure rest ih =>
    simp only [List.flatMap_cons, Procedure.tokens, List.cons_append, List.length_cons,
      List.length_append]
    omega

mutual

/-- Control leaves every statement without empty lists. -/
theorem Stmt.ends_of_filled (s : Stmt) (filled : s.Throughout Stmt.filled) : s.ends = true := by
  obtain ⟨own, inside⟩ := Stmt.throughout_iff.mp filled
  cases s with
  | assign target value => rfl
  | call callee => rfl
  | loop condition body => rfl
  | branch condition thenBody elseBody =>
    simp only [Stmt.filled, Bool.and_eq_true, Bool.not_eq_true', List.isEmpty_eq_false_iff] at own
    simp only [Stmt.parts, List.forall_mem_append] at inside
    simp only [Stmt.ends, Bool.and_eq_true]
    exact ⟨Stmt.listEnds_of_filled thenBody own.1 inside.1,
      Stmt.listEnds_of_filled elseBody own.2 inside.2⟩

theorem Stmt.listEnds_of_filled (statements : List Stmt) (nonempty : statements ≠ [])
    (filled : ∀ s ∈ statements, s.Throughout Stmt.filled)
    : Stmt.listEnds statements = true := by
  match statements with
  | [] => exact absurd rfl nonempty
  | [s] => exact Stmt.ends_of_filled s (filled s (by simp))
  | s :: s' :: rest =>
    exact Stmt.listEnds_of_filled (s' :: rest) (by simp) fun t member => filled t (by simp_all)

end

variable {tokens : List Token} {cs : List Char}

/-- Each token takes at least one character. -/
theorem Laid.length_le (laid : Laid tokens cs)
    (clear : ∀ t ∈ tokens, t.unmistakable = true)
    : tokens.length ≤ cs.length := by
  induction laid with
  | nil => simp
  | @cons t more gap rest _ _ _ ih =>
    have spelled : t.wellSpelled = true := (Bool.and_eq_true _ _ ▸ clear t (by simp)).1
    have pos := List.length_pos_iff.mpr (Token.text_solid spelled).1
    have below := ih fun t member => clear t (by simp [member])
    simp only [List.length_cons, List.length_append]
    omega

/-- There is no newline in tokens that are laid out. -/
theorem Laid.filter_newline (laid : Laid tokens cs)
    (clear : ∀ t ∈ tokens, t.unmistakable = true)
    : cs.filter (· != '\n') = cs := by
  rw [List.filter_eq_self]
  induction laid with
  | nil blank => exact fun c member => bne_iff_ne.mpr (blank c member).2
  | @cons t more gap rest blank _ _ ih =>
    have spelled : t.wellSpelled = true := (Bool.and_eq_true _ _ ▸ clear t (by simp)).1
    intro c member
    simp only [List.mem_append] at member
    rw [bne_iff_ne]
    rcases member with inGap | inText | inRest
    · exact (blank c inGap).2
    · rintro rfl
      exact absurd ((Token.text_solid spelled).2 _ inText) (by decide)
    · exact bne_iff_ne.mp (ih (fun t member => clear t (by simp [member])) c inRest)

theorem Laid.scan_nil (laid : Laid [] cs) : Token.scan cs = none := by
  cases laid with
  | nil blank => exact Token.scan_blanks fun c member => (blank c member).1

theorem Laid.scan_cons {t : Token} {more : List Token}
    (laid : Laid (t :: more) cs) (clear : t.unmistakable = true)
    : ∃ n rest, Token.scan cs = some (t, n, rest) ∧ Laid more rest := by
  cases laid with
  | cons blank apart laid =>
    exact ⟨_, _, Token.scan_of_unmistakable clear (fun c member => (blank c member).1)
      fun c member => Token.stopsAt_of_blank (apart c member) t, laid⟩

/-- One space in front of each token is enough. -/
theorem Laid.spaces (tokens : List Token)
    : Laid tokens (tokens.flatMap fun t => ' ' :: t.text.toList) := by
  induction tokens with
  | nil => exact .nil (by simp)
  | cons t more ih =>
    have apart : ∀ c ∈ (more.flatMap fun t => ' ' :: t.text.toList).head?, isBlank c := by
      cases more with
      | nil => simp
      | cons t' more =>
        rintro c ⟨rfl⟩
        decide
    exact @Laid.cons t more [' '] _ (forall_mem_of_all (by decide)) apart ih

end ProgramQuery

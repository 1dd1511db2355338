import ProgramQuery.Program.Flow
import ProgramQuery.Proofs.Program.Tokens

/-! The grammar of programs over tokens. Keywords and signs count by their kinds, names and integers by
their texts too, and parentheses may stand around any part of an expression.
-/

namespace ProgramQuery

open Program

def Operator.kind : Operator → TokenKind
  | .plus => .plus
  | .minus => .minus
  | .times => .multiply

def Operator.level : Operator → Nat
  | .plus => 0
  | .minus => 0
  | .times => 1

/-- Tokens that stand for an expression. Sums are on level zero, products on level one and single
factors on level two; operators of one level group to the left. -/
inductive Expr.Spelled : Nat → Expr → List Token → Prop
  | name {t : Token} (kind : t.kind = .name) : Spelled 2 (.name t.text) [t]
  | literal {t : Token} (kind : t.kind = .integer) : Spelled 2 (.literal t.text) [t]
  | group {opening closing : Token} {e : Expr} {tokens : List Token}
    (kinds : [opening, closing].map Token.kind = [.openParenthesis, .closeParenthesis])
    (inner : Spelled 0 e tokens)
    : Spelled 2 e (opening :: (tokens ++ [closing]))
  | lift {level : Nat} {e : Expr} {tokens : List Token} (higher : Spelled (level + 1) e tokens)
    : Spelled level e tokens
  | binary {op : Operator} {sign : Token} {left right : Expr} {before after : List Token}
    (kind : sign.kind = op.kind) (first : Spelled op.level left before)
    (second : Spelled (op.level + 1) right after)
    : Spelled op.level (.binary op left right) (before ++ sign :: after)

mutual

inductive Stmt.Spelled : Stmt → List Token → Prop
  | assign {target equals semicolon : Token} {value : Expr} {tokens : List Token}
    (kinds : [target, equals, semicolon].map Token.kind = [.name, .assign, .semicolon])
    (right : value.Spelled 0 tokens)
    : Spelled (.assign target.text value) (target :: equals :: (tokens ++ [semicolon]))
  | call {word callee semicolon : Token}
    (kinds : [word, callee, semicolon].map Token.kind = [.callWord, .name, .semicolon])
    : Spelled (.call callee.text) [word, callee, semicolon]
  | loop {word condition opening closing : Token} {body : List Stmt} {tokens : List Token}
    (kinds : [word, condition, opening, closing].map Token.kind
      = [.whileWord, .name, .openBracket, .closeBracket])
    (inner : ListSpelled body tokens)
    : Spelled (.loop condition.text body) (word :: condition :: opening :: (tokens ++ [closing]))
  | branch {word condition thenWord opening closing elseWord opening' closing' : Token}
    {thenBody elseBody : List Stmt} {thenTokens elseTokens : List Token}
    (kinds : [word, condition, thenWord, opening, closing, elseWord, opening', closing'].map Token.kind
      = [.ifWord, .name, .thenWord, .openBracket, .closeBracket, .elseWord, .openBracket,
        .closeBracket])
    (first : ListSpelled thenBody thenTokens) (second : ListSpelled elseBody elseTokens)
    : Spelled (.branch condition.text thenBody elseBody)
        (word :: condition :: thenWord :: opening
          :: (thenTokens ++ closing :: elseWord :: opening' :: (elseTokens ++ [closing'])))

inductive Stmt.ListSpelled : List Stmt → List Token → Prop
  | nil : ListSpelled [] []
  | cons {s : Stmt} {rest : List Stmt} {before after : List Token} (first : Spelled s before)
    (others : ListSpelled rest after)
    : ListSpelled (s :: rest) (before ++ after)

end

inductive Procedure.Spelled : Procedure → List Token → Prop
  | mk {word name opening closing : Token} {body : List Stmt} {tokens : List Token}
    (kinds : [word, name, opening, closing].map Token.kind
      = [.procedureWord, .name, .openBracket, .closeBracket])
    (inner : Stmt.ListSpelled body tokens)
    : Spelled ⟨name.text, body⟩ (word :: name :: opening :: (tokens ++ [closing]))

inductive Program.Sequence : List Procedure → List Token → Prop
  | nil : Sequence [] []
  | cons {procedure : Procedure} {rest : List Procedure} {before after : List Token}
    (first : procedure.Spelled before) (others : Sequence rest after)
    : Sequence (procedure :: rest) (before ++ after)

theorem Expr.Spelled.ne_nil {level : Nat} {e : Expr} {tokens : List Token}
    (spelled : e.Spelled level tokens)
    : tokens ≠ [] := by
  induction spelled with
  | lift _ ih => exact ih
  | _ => simp

theorem Stmt.Spelled.ne_nil {s : Stmt} {tokens : List Token} (spelled : s.Spelled tokens)
    : tokens ≠ [] := by
  cases spelled <;> simp

theorem Procedure.Spelled.ne_nil {procedure : Procedure} {tokens : List Token}
    (spelled : procedure.Spelled tokens)
    : tokens ≠ [] := by
  cases spelled
  simp

def Stmt.filled : Stmt → Bool
  | .assign _ _ => true
  | .call _ => true
  | .loop _ body => !body.isEmpty
  | .branch _ thenBody elseBody => !thenBody.isEmpty && !elseBody.isEmpty

/-- Somewhere among some tokens stands a loop with an empty body or a conditional with an empty
branch. -/
def Program.Hollow (whole : List Token) : Prop :=
  ∃ s tokens, Stmt.Spelled s tokens ∧ s.filled = false ∧ tokens <:+: whole

theorem Program.Hollow.mono {whole more : List Token} (hollow : Program.Hollow whole)
    (inside : whole <:+: more)
    : Program.Hollow more := by
  obtain ⟨s, tokens, spelled, empty, found⟩ := hollow
  exact ⟨s, tokens, spelled, empty, found.trans inside⟩

mutual

/-- Where it is not settled where control leaves a statement, something in it is empty. The recursion
follows the last statement of each list inside. -/
theorem Stmt.hollow_of_not_ends (s : Stmt) {tokens : List Token} (spelled : s.Spelled tokens)
    (endless : s.ends = false)
    : Program.Hollow tokens := by
  cases spelled with
  | assign => cases endless
  | call => cases endless
  | loop => cases endless
  | @branch word condition thenWord opening closing elseWord opening' closing' thenBody elseBody
      thenTokens elseTokens kinds first second =>
      have spelled := Stmt.Spelled.branch kinds first second
      rw [Stmt.ends, Bool.and_eq_false_iff] at endless
      rcases endless with endless | endless
      · rcases Stmt.hollow_of_not_listEnds thenBody first endless with rfl | hollow
        · exact ⟨_, _, spelled, rfl, List.infix_refl _⟩
        · exact hollow.mono ⟨[word, condition, thenWord, opening],
            closing :: elseWord :: opening' :: (elseTokens ++ [closing']), by simp⟩
      · rcases Stmt.hollow_of_not_listEnds elseBody second endless with rfl | hollow
        · exact ⟨_, _, spelled, by simp [Stmt.filled], List.infix_refl _⟩
        · exact hollow.mono ⟨[word, condition, thenWord, opening] ++ thenTokens
            ++ [closing, elseWord, opening'], [closing'], by simp⟩

theorem Stmt.hollow_of_not_listEnds (statements : List Stmt) {tokens : List Token}
    (spelled : Stmt.ListSpelled statements tokens) (endless : Stmt.listEnds statements = false)
    : statements = [] ∨ Program.Hollow tokens := by
  match statements with
  | [] => exact .inl rfl
  | [s] =>
    cases spelled with
    | cons first others =>
      cases others
      rw [List.append_nil]
      exact .inr (Stmt.hollow_of_not_ends s first endless)
  | s :: s' :: rest =>
    cases spelled with
    | @cons _ _ before after first others =>
      rcases Stmt.hollow_of_not_listEnds (s' :: rest) others endless with empty | hollow
      · cases empty
      · exact .inr (hollow.mono (List.suffix_append before after).isInfix)

end

end ProgramQuery

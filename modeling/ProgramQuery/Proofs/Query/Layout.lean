import ProgramQuery.Proofs.Query.Printing

/-! The text of a printed query is read as the tokens that were printed. -/

namespace ProgramQuery.Query

open Text

/-- A token as it is read off a text, with the spaces around it. -/
structure Token.Shows (shown t : Token) : Prop where
  kind : shown.kind = t.kind
  text : ∃ before after, shown.text = String.ofList (before ++ (t.text.toList ++ after))
    ∧ ∀ c ∈ before ++ after, c = ' '
  close : t.kind = .attr → shown.text = t.text

/-- The tokens that a text is read as, one after the other up to its end. -/
inductive Lexes : List Char → List Token → Prop
  | nil : Lexes [] []
  | cons {t shown : Token} {more : List Token} {cs rest : List Char}
    (found : Token.scan (fun _ => true) cs = some (shown, rest)) (shows : shown.Shows t)
    (noDot : t.kind ≠ .dot) (shorter : rest.length < cs.length) (lexes : Lexes rest more)
    : Lexes cs (t :: more)

theorem Lexes.length_le {cs : List Char} {tokens : List Token} (lexes : Lexes cs tokens)
    : tokens.length ≤ cs.length := by
  induction lexes with
  | nil => simp
  | cons _ _ _ shorter _ ih =>
    simp only [List.length_cons]
    omega

section Steps

variable {t : Token} {more : List Token} {gap rest : List Char}

theorem Token.Printed.noDot (printed : t.Printed) : t.kind ≠ .dot := by
  cases printed with
  | fixed _ _ noDot => exact noDot
  | _ => exact nofun

theorem Token.Gap.space (isGap : t.Gap gap) : ∀ c ∈ gap, c = ' ' := by
  rcases isGap with ⟨rfl, -⟩ | ⟨rfl, -⟩ <;> simp

theorem Lexes.printed (printed : t.Printed) (isGap : t.Gap gap) (apart : Apart rest)
    (noType : t.kind ≠ .declaration) (lexes : Lexes rest more)
    : Lexes (gap ++ (t.text.toList ++ rest)) (t :: more) := by
  refine .cons (printed.scan (fun _ => rfl) isGap apart noType) ?_ printed.noDot ?_ lexes
  · refine ⟨rfl, ⟨gap, [], by simp, by simpa using isGap.space⟩, fun attr => ?_⟩
    rcases isGap with ⟨-, other⟩ | ⟨rfl, -⟩
    · exact absurd attr other
    · simp
  · obtain ⟨c, cs, heading, -⟩ := printed.head
    simp [heading]
    omega

theorem Lexes.declaration {word : String} (known : word ∈ entityWords)
    (isGap : Token.Gap ⟨.declaration, word⟩ gap) (lexes : Lexes rest more)
    : Lexes (gap ++ (word.toList ++ ' ' :: rest)) (⟨.declaration, word⟩ :: more) := by
  refine .cons (Token.scan_declaration (fun _ => rfl) known isGap) ?_ nofun ?_ lexes
  · refine ⟨rfl, ⟨gap, [' '], by simp, ?_⟩, nofun⟩
    have space := isGap.space
    intro c member
    rcases List.mem_append.mp member with inGap | last
    · exact space c inGap
    · simpa using last
  · simp
    omega

theorem Lexes.quote (isGap : TokenKind.quote.token.Gap gap)
    (noAttribute : ∀ w ∈ attributeWords, ¬ w.toList <+: rest)
    (lone : ∀ word more, Recogniser.run isLetter isNameChar rest = some (word, more) →
      more.head? ≠ some '"')
    (lexes : Lexes rest more)
    : Lexes (gap ++ (TokenKind.quote.token.text.toList ++ rest)) (TokenKind.quote.token :: more) := by
  refine .cons (Token.scan_quote (fun _ => rfl) isGap noAttribute lone) ?_ nofun ?_ lexes
  · exact ⟨rfl, ⟨gap, [], by simp [TokenKind.token, TokenKind.spelling?],
      by simpa using isGap.space⟩, nofun⟩
  · simp [TokenKind.token, TokenKind.spelling?]
    omega

end Steps

section Readable

variable {tight : Bool} {t : Token} {more tokens : List Token} {before : TokenKind}

/-- Tokens that are read back wherever a text goes on with them. -/
def Readable (tight : Bool) : List Token → Prop
  | [] => True
  | t :: more => t.Printed ∧ Readable tight more
      ∧ ∀ gap, t.Gap gap → Lexes (gap ++ (t.text.toList ++ spaced tight t.kind more)) (t :: more)

theorem touch_iff {after : TokenKind}
    : touch tight before after = true ↔ after = .attr
      ∨ tight = true ∧ before = .quote ∧ after ∈ [.name, .integer, .openParenthesis]
      ∨ tight = true ∧ after = .quote ∧ before ∈ [.name, .integer, .closeParenthesis] := by
  simp [touch, or_assoc, and_assoc]

theorem gap_of_touch : t.Gap (if touch tight before t.kind then [] else [' ']) := by
  split
  · next touching =>
    refine .inr ⟨rfl, ?_⟩
    rcases touch_iff.mp touching with attr | ⟨-, -, starts⟩ | ⟨-, quote, -⟩
    · simp [attr]
    · simp only [List.mem_cons, List.not_mem_nil, or_false] at starts ⊢
      rcases starts with name | integer | parenthesis
      · simp [name]
      · simp [integer]
      · simp [parenthesis]
    · simp [quote]
  · next apart =>
    refine .inl ⟨rfl, fun attr => apart ?_⟩
    exact touch_iff.mpr (.inl attr)

theorem Readable.lexes (readable : Readable tight tokens) (before : TokenKind)
    : Lexes (spaced tight before tokens) tokens := by
  cases tokens with
  | nil => exact .nil
  | cons t more => exact readable.2.2 _ gap_of_touch

/-- At its start, a text needs no space. -/
theorem Readable.laidOut (readable : Readable tight (t :: more))
    (starts : t.kind ∈ [.declaration, .select])
    : Lexes (laidOut tight (t :: more)) (t :: more) := by
  refine readable.2.2 [] (.inr ⟨rfl, ?_⟩)
  simp only [List.mem_cons, List.not_mem_nil, or_false] at starts
  rcases starts with type | select
  · simp [type]
  · simp [select]

theorem Readable.printed (readable : Readable tight tokens) : ∀ t ∈ tokens, t.Printed := by
  induction tokens with
  | nil => simp
  | cons t more ih => exact List.forall_mem_cons.mpr ⟨readable.1, ih readable.2.1⟩

/-- After a token there is a space, or what may touch it. -/
theorem apart_spaced (printed : ∀ t ∈ more.head?, t.Printed)
    (alone : before = .quote → ∀ t ∈ more.head?,
      t.kind ∉ [.name, .integer, .openParenthesis] ∨ tight = false)
    : Apart (spaced tight before more) := by
  cases more with
  | nil => simp [Apart, spaced]
  | cons t more =>
    simp only [spaced]
    split
    · next touching =>
      have own := printed t rfl
      rcases touch_iff.mp touching with attr | ⟨isTight, quote, starts⟩ | ⟨-, quote, -⟩
      · cases own with
        | attr _ => simp [Apart]
        | fixed spelled _ _ =>
          cases attr
          cases spelled
        | _ => cases attr
      · rcases alone quote t rfl with other | loose
        · exact absurd starts other
        · rw [isTight] at loose
          cases loose
      · cases own with
        | fixed spelled _ _ =>
          cases quote
          cases spelled
          simp [Apart]
        | _ => cases quote
    · simp [Apart]

theorem Readable.head_printed (readable : Readable tight more) : ∀ t ∈ more.head?, t.Printed := by
  cases more with
  | nil => simp
  | cons t more => simpa using readable.1

structure Token.Plain (t : Token) : Prop where
  printed : t.Printed
  noQuote : t.kind ≠ .quote
  noType : t.kind ≠ .declaration

theorem TokenKind.plain {kind : TokenKind} (spelled : kind.spelling?.isSome = true)
    (unstarred : kind ≠ .affectsStar) (noDot : kind ≠ .dot) (noQuote : kind ≠ .quote)
    : kind.token.Plain := by
  obtain ⟨text, spelled⟩ := Option.isSome_iff_exists.mp spelled
  have own : kind.token = ⟨kind, text⟩ := by rw [TokenKind.token, spelled, Option.getD_some]
  rw [own]
  refine ⟨.fixed spelled unstarred noDot, noQuote, ?_⟩
  rintro rfl
  cases spelled

theorem Readable.plain (plain : t.Plain) (readable : Readable tight more)
    : Readable tight (t :: more) := by
  refine ⟨plain.printed, readable, fun gap isGap => ?_⟩
  have apart : Apart (spaced tight t.kind more) :=
    apart_spaced readable.head_printed fun quote => absurd quote plain.noQuote
  exact .printed plain.printed isGap apart plain.noType (readable.lexes t.kind)

theorem Readable.append (plain : ∀ t ∈ tokens, t.Plain) (readable : Readable tight more)
    : Readable tight (tokens ++ more) := by
  induction tokens with
  | nil => exact readable
  | cons t tokens ih =>
    obtain ⟨first, others⟩ := List.forall_mem_cons.mp plain
    exact (ih others).plain first

theorem Readable.declaration {word : String} (known : word ∈ entityWords)
    (next : t.kind = .name ∨ t.kind = .semicolon) (readable : Readable tight (t :: more))
    : Readable tight (⟨.declaration, word⟩ :: t :: more) := by
  refine ⟨.declaration known, readable, fun gap isGap => ?_⟩
  have loose : touch tight .declaration t.kind = false := by
    rcases next with name | semicolon
    · simp [touch, name]
    · simp [touch, semicolon]
  have free : t.Gap [] := by
    refine .inr ⟨rfl, ?_⟩
    rcases next with name | semicolon
    · simp [name]
    · simp [semicolon]
  simp only [spaced, loose]
  exact .declaration known isGap (readable.2.2 [] free)

theorem quote_printed : TokenKind.quote.token.Printed :=
  .fixed rfl nofun nofun

/-- A quote that closes an expression. -/
theorem Readable.closing (readable : Readable tight (t :: more))
    (next : t.kind ∉ [.name, .integer, .openParenthesis])
    : Readable tight (TokenKind.quote.token :: t :: more) := by
  refine ⟨quote_printed, readable, fun gap isGap => ?_⟩
  have apart : Apart (spaced tight .quote (t :: more)) := by
    refine apart_spaced readable.head_printed fun _ t' member => ?_
    obtain rfl : t = t' := by simpa using member
    exact .inl next
  exact .printed quote_printed isGap apart nofun (readable.lexes _)

end Readable

section Expressions

variable {tight : Bool} {t : Token} {more : List Token}

def isOperator (kind : TokenKind) : Bool :=
  [.plus, .minus, .multiply].contains kind

/-- How an expression of more than one name begins: not with a name alone. -/
def Opens (t : Token) (more : List Token) : Prop :=
  t.kind = .openParenthesis ∨ t.kind = .integer
    ∨ t.kind = .name ∧ ∃ t' ∈ more.head?, isOperator t'.kind = true

theorem Opens.append {tokens : List Token} (opens : Opens t more) : Opens t (more ++ tokens) := by
  rcases opens with parenthesis | integer | ⟨name, t', next, operator⟩
  · exact .inl parenthesis
  · exact .inr (.inl integer)
  · refine .inr (.inr ⟨name, t', ?_, operator⟩)
    cases more with
    | nil => cases next
    | cons t'' more => exact next

theorem IsSpelled.operands {op : Operator} {left right : Expr}
    (spelled : IsSpelled (.binary op left right))
    : IsSpelled left ∧ IsSpelled right := by
  obtain ⟨names, literals⟩ := spelled
  simp only [Expr.names, Expr.literals, List.forall_mem_append] at names literals
  exact ⟨⟨names.1, literals.1⟩, names.2, literals.2⟩

theorem exprTokens_plain (e : Expr) (spelled : IsSpelled e) (level : Nat)
    : ∀ t ∈ exprTokens e level, t.Plain := by
  induction e generalizing level with
  | name x =>
    intro t member
    obtain rfl : t = ⟨.name, x⟩ := by simpa [exprTokens, Expr.tokens, tokenOf] using member
    exact ⟨.name (spelled.names x (by simp [Expr.names])), by simp, by simp⟩
  | literal digits =>
    intro t member
    obtain rfl : t = ⟨.integer, digits⟩ := by simpa [exprTokens, Expr.tokens, tokenOf] using member
    exact ⟨.integer (spelled.literals digits (by simp [Expr.literals])), by simp, by simp⟩
  | binary op left right ihLeft ihRight =>
    obtain ⟨spelledLeft, spelledRight⟩ := spelled.operands
    have sign : (tokenOf op.kind.token).Plain := by
      cases op <;> exact TokenKind.plain rfl (by simp) (by simp) (by simp)
    have bare := And.intro (ihLeft spelledLeft op.level)
      (And.intro sign (ihRight spelledRight (op.level + 1)))
    have parenthesis : (tokenOf Program.TokenKind.openParenthesis.token).Plain
        ∧ (tokenOf Program.TokenKind.closeParenthesis.token).Plain :=
      ⟨TokenKind.plain rfl (by simp) (by simp) (by simp),
        TokenKind.plain rfl (by simp) (by simp) (by simp)⟩
    unfold exprTokens at bare ⊢
    simp only [Expr.tokens]
    split
    · simp only [List.map_cons, List.map_append, List.map_nil, List.forall_mem_cons,
        List.forall_mem_append, List.not_mem_nil, false_imp_iff, implies_true, and_true]
      exact ⟨parenthesis.1, bare, parenthesis.2⟩
    · simp only [List.map_cons, List.map_append, List.forall_mem_cons, List.forall_mem_append]
      exact bare

theorem exprTokens_head (e : Expr) (level : Nat) (compound : ∀ x, e ≠ .name x)
    : ∃ t more, exprTokens e level = t :: more ∧ Opens t more := by
  induction e generalizing level with
  | name x => exact absurd rfl (compound x)
  | literal digits => exact ⟨_, _, rfl, .inr (.inl rfl)⟩
  | binary op left right ih _ =>
    unfold exprTokens
    simp only [Expr.tokens]
    split
    · exact ⟨_, _, rfl, .inl rfl⟩
    · have operator : isOperator (tokenOf op.kind.token).kind = true := by cases op <;> rfl
      rw [List.map_append, List.map_cons]
      cases left with
      | name x => exact ⟨_, _, rfl, .inr (.inr ⟨rfl, _, rfl, operator⟩)⟩
      | literal digits => exact ⟨_, _, rfl, .inr (.inl rfl)⟩
      | binary op' left' right' =>
        obtain ⟨t, more, starts, opens⟩ := ih op.level (by simp)
        unfold exprTokens at starts
        rw [starts]
        exact ⟨t, _, rfl, opens.append⟩

/-- A quote that opens an expression is not taken for the start of a quoted name. -/
theorem Readable.opening (readable : Readable tight (t :: more)) (starts : Opens t more)
    : Readable tight (TokenKind.quote.token :: t :: more) := by
  refine ⟨quote_printed, readable, fun gap isGap => ?_⟩
  cases loose : tight with
  | false =>
    subst loose
    have apart : Apart (spaced false .quote (t :: more)) :=
      apart_spaced readable.head_printed fun _ _ _ => .inr rfl
    exact .printed quote_printed isGap apart nofun (readable.lexes _)
  | true =>
    subst loose
    have touching : touch true .quote t.kind = true := by
      rcases starts with parenthesis | integer | ⟨name, -⟩
      · simp [touch, parenthesis]
      · simp [touch, integer]
      · simp [touch, name]
    have noQuote : t.kind ≠ .quote := by
      rcases starts with parenthesis | integer | ⟨name, -⟩
      · simp [parenthesis]
      · simp [integer]
      · simp [name]
    have apart : Apart (spaced true t.kind more) :=
      apart_spaced readable.2.1.head_printed fun quote => absurd quote noQuote
    have lexes := readable.lexes .quote
    have text : spaced true .quote (t :: more) = t.text.toList ++ spaced true t.kind more := by
      simp [spaced, touching]
    have own : TokenKind.quote.token.kind = .quote := rfl
    rw [own, text]
    rw [text] at lexes
    refine .quote isGap (fun w known => readable.1.not_attribute apart known) ?_ lexes
    intro word after found
    cases readable.1 with
    | fixed spelled _ _ =>
      rcases starts with rfl | rfl | ⟨rfl, -⟩ <;> cases spelled
      cases found
    | name synonym =>
      obtain ⟨c, ds, heading, letter, digits⟩ := isSynonym_iff.mp synonym
      have named (d : Char) (member : d ∈ ds) : isNameChar d = true := by
        simp [isNameChar, isLetterOrDigit, digits d member]
      have whole := Recogniser.run_append letter named (not_isNameChar_of_apart apart)
      rw [heading, List.cons_append, whole] at found
      cases found
      rcases starts with other | other | ⟨-, t', next, operator⟩
      · cases other
      · cases other
      · cases more with
        | nil => cases next
        | cons t'' more =>
          cases next
          have space : touch true .name t'.kind = false := by
            cases kind : t'.kind <;> simp_all [touch, isOperator]
          simp [spaced, space]
    | integer numeral =>
      obtain ⟨c, ds, heading, digits⟩ := isNumeral_iff.mp numeral
      simp [heading, Recogniser.run, not_isLetter_of_isDigit (digits c (by simp))] at found
    | _ => simp [Opens] at starts

/-- An expression in quotes is a name, or it stands between two quotes. -/
theorem IsQuoted.cases {e : Expr} (accepted : IsQuoted e)
    : (∃ x, e = .name x ∧ isQuotable x = true)
      ∨ (∀ x, e ≠ .name x) ∧ IsSpelled e
        ∧ quotedTokens e = TokenKind.quote.token :: (exprTokens e 0 ++ [TokenKind.quote.token]) := by
  cases e with
  | name x => exact .inl ⟨x, rfl, accepted⟩
  | literal digits => exact .inr ⟨nofun, accepted, rfl⟩
  | binary op left right => exact .inr ⟨nofun, accepted, rfl⟩

theorem readable_quoted {e : Expr} (accepted : IsQuoted e)
    (next : t.kind ∉ [.name, .integer, .openParenthesis]) (readable : Readable tight (t :: more))
    : Readable tight (quotedTokens e ++ t :: more) := by
  rcases accepted.cases with ⟨x, rfl, quotable⟩ | ⟨compound, spelled, tokens⟩
  · exact readable.plain ⟨.quotedName quotable, nofun, nofun⟩
  · rw [tokens, List.cons_append, List.append_assoc, List.singleton_append]
    have whole := (readable.closing next).append (exprTokens_plain e spelled 0)
    obtain ⟨t', more', starts, opens⟩ := exprTokens_head e 0 compound
    rw [starts] at whole ⊢
    exact Readable.opening whole opens.append

end Expressions

section Queries

variable {tight : Bool} {tokens : List Token}

/-- Tokens that can be put in front of others. -/
def Joins (tight : Bool) (tokens : List Token) : Prop :=
  ∀ more, Readable tight more → Readable tight (tokens ++ more)

theorem Joins.of_plain (plain : ∀ t ∈ tokens, t.Plain) : Joins tight tokens :=
  fun _ readable => readable.append plain

theorem Joins.cons {t : Token} {tokens : List Token} (plain : t.Plain) (joins : Joins tight tokens)
    : Joins tight (t :: tokens) :=
  fun more readable => (joins more readable).plain plain

theorem Joins.separated {α : Type} {between : Token} {tokens : α → List Token} {xs : List α}
    (plain : between.Plain) (each : ∀ x ∈ xs, Joins tight (tokens x))
    : Joins tight (separated between tokens xs) := by
  induction xs with
  | nil => exact fun _ readable => readable
  | cons x xs ih =>
    obtain ⟨first, others⟩ := List.forall_mem_cons.mp each
    cases xs with
    | nil => exact first
    | cons y rest =>
      intro more readable
      rw [Query.separated, List.append_assoc]
      exact first _ ((ih others more readable).plain plain)

theorem Joins.flatMap {α : Type} {tokens : α → List Token} {xs : List α}
    (each : ∀ x ∈ xs, Joins tight (tokens x))
    : Joins tight (xs.flatMap tokens) := by
  induction xs with
  | nil => exact fun _ readable => readable
  | cons x xs ih =>
    obtain ⟨first, others⟩ := List.forall_mem_cons.mp each
    intro more readable
    rw [List.flatMap_cons, List.append_assoc]
    exact first _ (ih others more readable)

theorem EntityType.word_mem (type : EntityType) : type.word ∈ entityWords := by
  cases type <;> decide

theorem Attribute.word_mem (a : Attribute) : a.word ∈ attributeWords := by
  cases a <;> decide

theorem Attribute.token_plain (a : Attribute) : a.token.Plain :=
  ⟨.attr a.word_mem, nofun, nofun⟩

theorem comma_plain : TokenKind.comma.token.Plain :=
  TokenKind.plain rfl nofun nofun nofun

theorem everything_plain : TokenKind.everything.token.Plain :=
  TokenKind.plain rfl nofun nofun nofun

theorem andWord_plain : TokenKind.andWord.token.Plain :=
  TokenKind.plain rfl nofun nofun nofun

theorem synonymToken_plain {x : String} (synonym : isSynonym x = true) : (synonymToken x).Plain :=
  ⟨.name synonym, nofun, nofun⟩

theorem lineToken_plain {scope : Scope} {digits : String} (line : scope.HasLine digits)
    : Token.Plain ⟨.integer, digits⟩ :=
  ⟨.integer line.1, nofun, nofun⟩

theorem nameToken_plain {x : String} (quotable : isQuotable x = true)
    : Token.Plain ⟨.quotedName, inQuotes x⟩ :=
  ⟨.quotedName quotable, nofun, nofun⟩

theorem Declaration.joins {d : Declaration} (synonyms : ∀ x ∈ d.names, isSynonym x = true)
    : Joins tight d.tokens := by
  intro more readable
  have semicolon : TokenKind.semicolon.token.Plain := TokenKind.plain rfl nofun nofun nofun
  have names : Joins tight (separated TokenKind.comma.token (fun x => [synonymToken x]) d.names) :=
    .separated comma_plain fun x member =>
      .of_plain (by simpa using synonymToken_plain (synonyms x member))
  have rest := names _ (readable.plain semicolon)
  rw [Declaration.tokens, List.cons_append, List.append_assoc, List.singleton_append]
  match listed : d.names with
  | [] =>
    rw [listed] at rest
    exact rest.declaration d.type.word_mem (.inr rfl)
  | [x] =>
    rw [listed] at rest
    exact rest.declaration d.type.word_mem (.inl rfl)
  | x :: y :: others =>
    rw [listed] at rest
    exact rest.declaration d.type.word_mem (.inl rfl)

/-- Tokens that can be an argument. The expression of a pattern is one, for no other expression comes
after it. -/
def IsArgument (tight : Bool) (tokens : List Token) : Prop :=
  ∀ t more, t.kind = .comma ∨ t.kind = .closeParenthesis → Readable tight (t :: more) →
    Readable tight (tokens ++ t :: more)

theorem Token.Plain.isArgument {t : Token} (plain : t.Plain) : IsArgument tight [t] :=
  fun _ _ _ readable => readable.plain plain

theorem joins_inParentheses {arguments : List (List Token)}
    (each : arguments.Forall (IsArgument tight))
    : Joins tight (inParentheses arguments) := by
  intro more readable
  rw [List.forall_iff_forall_mem] at each
  have openPlain : TokenKind.openParenthesis.token.Plain := TokenKind.plain rfl nofun nofun nofun
  have closePlain : TokenKind.closeParenthesis.token.Plain := TokenKind.plain rfl nofun nofun nofun
  rw [inParentheses, List.cons_append, List.append_assoc, List.singleton_append]
  refine Readable.plain openPlain ?_
  have closed := readable.plain closePlain
  induction arguments with
  | nil => exact closed
  | cons tokens arguments ih =>
    obtain ⟨first, others⟩ := List.forall_mem_cons.mp each
    cases arguments with
    | nil => exact first _ _ (.inr rfl) closed
    | cons second arguments =>
      rw [separated, List.append_assoc]
      exact first _ _ (.inl rfl) ((ih others).plain comma_plain)

theorem RightSide.isArgument {value : RightSide} (accepted : value.Accepted)
    : IsArgument tight value.tokens := by
  intro t more next readable
  have noExpr : t.kind ∉ [.name, .integer, .openParenthesis] := by
    rcases next with comma | parenthesis
    · simp [comma]
    · simp [parenthesis]
  cases value with
  | anything => exact readable.plain everything_plain
  | whole e => exact readable_quoted accepted noExpr readable
  | part e =>
    rw [RightSide.tokens, List.cons_append, List.append_assoc, List.singleton_append]
    have inside := readable_quoted accepted (by decide) (readable.plain everything_plain)
    exact inside.plain everything_plain

variable {scope : Scope} {q : Query}
  (declared : ∀ x type, q.typeOf? x = some type → isSynonym x = true) {r : Reference}
include declared

theorem FitsLine.plain (fits : q.FitsLine scope r) : r.token.Plain := by
  cases r with
  | synonym x =>
    obtain ⟨type, found, -⟩ := fits
    exact synonymToken_plain (declared x type found)
  | anything => exact everything_plain
  | line digits => exact lineToken_plain fits
  | name x => cases fits

theorem FitsProcedure.plain (fits : q.FitsProcedure scope r) : r.token.Plain := by
  cases r with
  | synonym x => exact synonymToken_plain (declared x _ fits)
  | anything => exact everything_plain
  | line digits => cases fits
  | name x => exact nameToken_plain fits.1

theorem FitsVariable.plain (fits : q.FitsVariable scope r) : r.token.Plain := by
  cases r with
  | synonym x => exact synonymToken_plain (declared x _ fits)
  | anything => exact everything_plain
  | line digits => cases fits
  | name x => exact nameToken_plain fits.1

theorem RelationCondition.Accepted.plain {c : RelationCondition} (accepted : c.Accepted scope q)
    : c.first.token.Plain ∧ c.second.token.Plain := by
  have lines (fits : q.FitsLine scope c.first ∧ q.FitsLine scope c.second) :=
    And.intro (FitsLine.plain declared fits.1) (FitsLine.plain declared fits.2)
  have procedures (fits : q.FitsProcedure scope c.first ∧ q.FitsProcedure scope c.second) :=
    And.intro (FitsProcedure.plain declared fits.1) (FitsProcedure.plain declared fits.2)
  have effects
      (fits : (q.FitsLine scope c.first ∨ q.FitsProcedure scope c.first)
        ∧ q.FitsVariable scope c.second)
      : c.first.token.Plain ∧ c.second.token.Plain := by
    refine ⟨?_, FitsVariable.plain declared fits.2⟩
    rcases fits.1 with line | procedure
    · exact FitsLine.plain declared line
    · exact FitsProcedure.plain declared procedure
  unfold RelationCondition.Accepted at accepted
  split at accepted
  all_goals first
    | exact lines ⟨accepted.1, accepted.2.1⟩
    | exact procedures ⟨accepted.1, accepted.2.1⟩
    | exact lines accepted
    | exact effects accepted

theorem RelationCondition.joins {c : RelationCondition} (accepted : c.Accepted scope q)
    : Joins tight c.tokens := by
  obtain ⟨first, second⟩ := RelationCondition.Accepted.plain declared accepted
  refine .cons (TokenKind.plain rfl nofun nofun nofun) (joins_inParentheses ?_)
  exact ⟨first.isArgument, second.isArgument⟩

theorem PatternCondition.joins {c : PatternCondition} (accepted : c.Accepted scope q)
    : Joins tight c.tokens := by
  cases c with
  | assignment x target value =>
    obtain ⟨type, fits, value⟩ := accepted
    refine .cons (synonymToken_plain (declared x _ type)) (joins_inParentheses ?_)
    exact ⟨(FitsVariable.plain declared fits).isArgument, RightSide.isArgument value⟩
  | branch x control =>
    refine .cons (synonymToken_plain (declared x _ accepted.1)) (joins_inParentheses ?_)
    exact ⟨(FitsVariable.plain declared accepted.2).isArgument, everything_plain.isArgument,
      everything_plain.isArgument⟩
  | loop x control =>
    refine .cons (synonymToken_plain (declared x _ accepted.1)) (joins_inParentheses ?_)
    exact ⟨(FitsVariable.plain declared accepted.2).isArgument, everything_plain.isArgument⟩

theorem AttributeCondition.joins {c : AttributeCondition} (accepted : c.Accepted scope q)
    : Joins tight c.tokens := by
  obtain ⟨type, found, -, comparand⟩ := accepted
  have compared : ∀ t ∈ c.comparand.tokens, t.Plain := by
    cases other : c.comparand with
    | name x =>
      rw [other] at comparand
      simpa [Comparand.tokens] using nameToken_plain comparand.1
    | line digits =>
      rw [other] at comparand
      simpa [Comparand.tokens] using lineToken_plain comparand
    | synonym x a =>
      rw [other] at comparand
      obtain ⟨type', found', -⟩ := comparand
      simpa [Comparand.tokens] using
        And.intro (synonymToken_plain (declared x type' found')) a.token_plain
  refine .cons (synonymToken_plain (declared _ type found)) (.of_plain ?_)
  simp only [List.forall_mem_append, List.forall_mem_cons, List.forall_mem_map]
  exact ⟨fun a _ => a.token_plain, TokenKind.plain rfl (by simp) (by simp) (by simp), compared⟩

theorem Clause.joins {clause : Clause} (accepted : clause.Accepted scope q)
    : Joins tight clause.tokens := by
  cases clause with
  | suchThat conditions =>
    exact .cons (TokenKind.plain rfl nofun nofun nofun) (.separated andWord_plain fun c member =>
      RelationCondition.joins declared (accepted.2 c member))
  | comparing conditions =>
    exact .cons (TokenKind.plain rfl nofun nofun nofun) (.separated andWord_plain fun c member =>
      AttributeCondition.joins declared (accepted.2 c member))
  | pattern conditions =>
    exact .cons (TokenKind.plain rfl nofun nofun nofun) (.separated andWord_plain fun c member =>
      PatternCondition.joins declared (accepted.2 c member))

omit declared

theorem WellFormed.isSynonym (formed : q.WellFormed scope) {x : String} {type : EntityType}
    (found : q.typeOf? x = some type)
    : isSynonym x = true := by
  obtain ⟨d, found, -⟩ := Option.map_eq_some_iff.mp found
  have member := List.mem_of_find?_eq_some found
  have named := List.find?_some found
  exact formed.synonyms d member x (List.contains_iff_mem.mp named)

theorem WellFormed.joins (formed : q.WellFormed scope) : Joins tight q.tokens := by
  intro more readable
  have clauses : Joins tight (q.clauses.flatMap Clause.tokens) :=
    .flatMap fun clause member =>
      Clause.joins (fun _ _ found => formed.isSynonym found) (formed.clauses clause member)
  have selected : (selectedToken q.selected).Plain := by
    cases chosen : q.selected with
    | none => exact TokenKind.plain rfl nofun nofun nofun
    | some x =>
      obtain ⟨type, found⟩ := formed.selected x chosen
      exact synonymToken_plain (formed.isSynonym found)
  have select : TokenKind.select.token.Plain := TokenKind.plain rfl nofun nofun nofun
  have declarations : Joins tight (q.declarations.flatMap Declaration.tokens) :=
    .flatMap fun d member => Declaration.joins (formed.synonyms d member)
  rw [tokens, List.append_assoc]
  exact declarations _ (Readable.plain select (Readable.plain selected (clauses more readable)))

theorem WellFormed.lexes_before (formed : q.WellFormed scope) {more : List Token}
    (readable : Readable tight more)
    : Lexes (laidOut tight (q.tokens ++ more)) (q.tokens ++ more) := by
  have whole : Readable tight (q.tokens ++ more) := formed.joins more readable
  unfold tokens at whole ⊢
  cases listed : q.declarations with
  | nil =>
    rw [listed] at whole
    exact whole.laidOut (by decide)
  | cons d rest =>
    rw [listed] at whole
    exact whole.laidOut (by simp)

theorem Token.Printed.no_newline {t : Token} (printed : t.Printed)
    : ∀ c ∈ t.text.toList, c ≠ '\n' := by
  cases printed with
  | @fixed kind text spelled unstarred noDot =>
    clear unstarred noDot
    cases kind
    case relation r => cases r <;> cases spelled <;> exact forall_mem_of_all (by decide)
    all_goals cases spelled
    all_goals exact forall_mem_of_all (by decide)
  | name synonym =>
    obtain ⟨d, ds, heading, letter, digits⟩ := isSynonym_iff.mp synonym
    rw [heading]
    rintro c member rfl
    rcases List.mem_cons.mp member with rfl | inside
    · exact absurd letter (by decide)
    · exact absurd (digits _ inside) (by decide)
  | integer numeral =>
    obtain ⟨d, ds, heading, digits⟩ := isNumeral_iff.mp numeral
    rw [heading]
    rintro c member rfl
    exact absurd (digits _ member) (by decide)
  | @quotedName x quotable =>
    obtain ⟨d, ds, heading, letter, named⟩ := isQuotable_iff.mp quotable
    have text : (inQuotes x).toList = '"' :: (d :: ds ++ ['"']) := by simp [inQuotes, heading]
    rw [text]
    rintro c member rfl
    simp only [List.cons_append, List.mem_cons, List.mem_append, List.not_mem_nil,
      or_false] at member
    rcases member with other | rfl | inside | other
    · exact absurd other (by decide)
    · exact absurd letter (by decide)
    · exact absurd (named _ inside) (by decide)
    · exact absurd other (by decide)
  | @attr word known =>
    have checked : ∀ word ∈ attributeWords, ("." ++ word).toList.all (· ≠ '\n') = true := by decide
    exact forall_mem_of_all (checked word known)
  | @declaration word known =>
    have checked : ∀ word ∈ entityWords, word.toList.all (· ≠ '\n') = true := by decide
    exact forall_mem_of_all (checked word known)

theorem spaced_no_newline (printed : ∀ t ∈ tokens, t.Printed)
    (before : TokenKind)
    : ∀ c ∈ spaced tight before tokens, c ≠ '\n' := by
  induction tokens generalizing before with
  | nil => simp [spaced]
  | cons t more ih =>
    obtain ⟨first, others⟩ := List.forall_mem_cons.mp printed
    simp only [spaced, List.forall_mem_append]
    refine ⟨?_, first.no_newline, ih others t.kind⟩
    split <;> exact forall_mem_of_all (by decide)

/-- Dropping newlines leaves printed tokens as they are. -/
theorem laidOut_filter_newline (printed : ∀ t ∈ tokens, t.Printed)
    : (laidOut tight tokens).filter (· != '\n') = laidOut tight tokens := by
  rw [List.filter_eq_self]
  intro c member
  rw [bne_iff_ne]
  cases tokens with
  | nil => cases member
  | cons t more =>
    obtain ⟨first, others⟩ := List.forall_mem_cons.mp printed
    rcases List.mem_append.mp member with inFirst | inMore
    · exact first.no_newline c inFirst
    · exact spaced_no_newline others t.kind c inMore

end Queries

end ProgramQuery.Query

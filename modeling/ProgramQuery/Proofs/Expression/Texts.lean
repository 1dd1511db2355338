import ProgramQuery.Proofs.Expression.Readings

/-! An expression written on the right of an assignment and in the pattern of a query, and the tokens
that either text is read as.
-/

namespace ProgramQuery

open Text

def Piece.textOf (pieces : List Piece) (after : Nat) : List Char :=
  pieces.flatMap Piece.chars ++ List.replicate after ' '

def assignmentText (e : List Char) : String :=
  String.ofList ("procedure p \x7b x = ".toList ++ (e ++ "; \x7d".toList))

def patternText (e : List Char) : String :=
  String.ofList ("assign a; Select a pattern a(_, _\"".toList ++ (e ++ "\"_)".toList))

section Lexed

variable {pieces : List Piece} {gap rest : List Char} {more : List Query.Token} {after : Nat}

theorem isBlank_spaces (after : Nat) (blank : ∀ c ∈ gap, isBlank c)
    : ∀ c ∈ gap ++ List.replicate after ' ', isBlank c := by
  intro c member
  rcases List.mem_append.mp member with before | space
  · exact blank c before
  · rw [List.eq_of_mem_replicate space]
    decide

theorem ending_spaces {c : Char} (after : Nat)
    (stops : Query.isNameChar c = false) (sparse : Sparse (c :: rest))
    : Ending (List.replicate after ' ' ++ c :: rest) := by
  refine ⟨?_, .append (fun d member => ?_) sparse⟩
  · cases after with
    | zero => exact Query.forall_head?_cons stops
    | succ n => exact Query.forall_head?_cons (by decide)
  · rw [List.eq_of_mem_replicate member]
    decide

theorem Program.lexes_pieces (written : Written pieces) (ending : Ending rest)
    (blank : ∀ c ∈ gap, isBlank c) {more : List Program.Token}
    (lexes : ∀ gap, (∀ c ∈ gap, isBlank c) → Program.Lexes (gap ++ rest) more)
    : Program.Lexes (gap ++ (pieces.flatMap Piece.chars ++ rest))
        ((pieces.map (·.mark)).map Mark.token ++ more) := by
  induction pieces generalizing gap with
  | nil => exact lexes gap blank
  | cons p pieces ih =>
    have spelled := written.spelled p (by simp)
    have found := Mark.scan_token spelled (isBlank_spaces p.gap blank) (written.stops ending)
    have text : gap ++ ((p :: pieces).flatMap Piece.chars ++ rest)
        = (gap ++ List.replicate p.gap ' ')
          ++ (p.mark.chars ++ (pieces.flatMap Piece.chars ++ rest)) := by
      simp [Piece.chars]
    rw [text]
    exact .cons found (@ih [] written.tail (by simp))

theorem Query.lexes_pieces (written : Written pieces) (ending : Ending rest)
    (lexes : Query.Lexes rest more)
    : Query.Lexes (pieces.flatMap Piece.chars ++ rest)
        ((pieces.map (·.mark)).map Query.markToken ++ more) := by
  induction pieces with
  | nil => exact lexes
  | cons p pieces ih =>
    have spelled := written.spelled p (by simp)
    have sparse := written.sparse ending
    have text : (p :: pieces).flatMap Piece.chars ++ rest
        = List.replicate p.gap ' ' ++ (p.mark.chars ++ (pieces.flatMap Piece.chars ++ rest)) := by
      simp [Piece.chars]
    rw [text] at sparse ⊢
    have blank : ∀ c ∈ List.replicate p.gap ' ', isBlank c := @isBlank_spaces [] p.gap (by simp)
    have shown : Query.Token.Shows
        ⟨(Query.markToken p.mark).kind, String.ofList (List.replicate p.gap ' ' ++ p.mark.chars)⟩
        (Query.markToken p.mark) := by
      refine ⟨rfl, ⟨List.replicate p.gap ' ', [], ?_, by simp⟩, fun attr => ?_⟩
      · rw [Query.markToken_text, List.append_nil]
        rfl
      · exact absurd attr (Query.markToken_kind p.mark).2
    refine .cons (Query.scan_mark (fun _ => rfl) spelled blank sparse (written.stops ending)) shown
      (Query.markToken_kind p.mark).1 ?_ (ih written.tail)
    obtain ⟨c, cs, heading, -⟩ := Mark.chars_eq spelled
    simp [heading]
    omega

/-- Tokens with a space after each. -/
theorem Program.lexes_words {tokens more : List Program.Token}
    (clear : ∀ t ∈ tokens, t.unmistakable = true) (blank : ∀ c ∈ gap, isBlank c)
    (lexes : ∀ gap, (∀ c ∈ gap, isBlank c) → Program.Lexes (gap ++ rest) more)
    : Program.Lexes (gap ++ (tokens.flatMap (fun t => t.text.toList ++ [' ']) ++ rest))
        (tokens ++ more) := by
  induction tokens generalizing gap with
  | nil => exact lexes gap blank
  | cons t tokens ih =>
    have following := @ih [' '] (fun t member => clear t (by simp [member]))
      (List.forall_mem_singleton.mpr (by decide))
    have stops : ∀ c ∈ ([' '] ++ (tokens.flatMap (fun t => t.text.toList ++ [' ']) ++ rest)).head?,
        t.stopsAt c = true := by
      rintro c ⟨rfl⟩
      exact Program.Token.stopsAt_of_blank (by decide) t
    rw [List.flatMap_cons, List.append_assoc, List.append_assoc]
    exact .cons (Program.Token.scan_of_unmistakable (clear t (by simp)) blank stops) following

def Program.openingTokens : List Program.Token :=
  [Program.TokenKind.procedureWord.token, ⟨.name, "p"⟩, Program.TokenKind.openBracket.token,
    ⟨.name, "x"⟩, Program.TokenKind.assign.token]

theorem Program.lexes_closing (after : Nat) (blank : ∀ c ∈ gap, isBlank c)
    : Program.Lexes (gap ++ (List.replicate after ' ' ++ "; \x7d".toList))
        Program.closingTokens := by
  have bracket (gap : List Char) (blank : ∀ c ∈ gap, isBlank c)
      : Program.Lexes (gap ++ "\x7d".toList) [Program.TokenKind.closeBracket.token] := by
    have found := @Program.Token.scan_of_unmistakable Program.TokenKind.closeBracket.token (by decide)
      gap [] blank nofun
    exact .cons found (.nil (by decide))
  rw [← List.append_assoc]
  exact @Program.lexes_words _ _ [Program.TokenKind.semicolon.token] _
    (List.forall_mem_singleton.mpr (by decide)) (isBlank_spaces after blank) bracket

theorem Program.lexes_assignmentText (written : Written pieces) (after : Nat)
    : Program.Lexes
        ("procedure p \x7b x = ".toList ++ (Piece.textOf pieces after ++ "; \x7d".toList))
        (Program.openingTokens
          ++ ((pieces.map (·.mark)).map Mark.token ++ Program.closingTokens)) := by
  have ending : Ending (List.replicate after ' ' ++ "; \x7d".toList) :=
    ending_spaces after (by decide) (by simp [Sparse]; decide)
  rw [Piece.textOf, List.append_assoc]
  exact @Program.lexes_words [] _ Program.openingTokens _ (by decide) nofun fun gap blank =>
    Program.lexes_pieces written ending blank fun gap blank => Program.lexes_closing after blank

def Query.openingTokens : List Query.Token :=
  [⟨.declaration, "assign"⟩, Query.synonymToken "a", Query.TokenKind.semicolon.token,
    Query.TokenKind.select.token, Query.synonymToken "a", Query.TokenKind.pattern.token,
    Query.synonymToken "a", Query.TokenKind.openParenthesis.token, Query.TokenKind.everything.token,
    Query.TokenKind.comma.token, Query.TokenKind.everything.token]

theorem Query.lexes_step {t : Query.Token} {cs before after : List Char} {more : List Query.Token}
    (found : Query.Token.scan (fun _ => true) cs
      = some (⟨t.kind, String.ofList (before ++ (t.text.toList ++ after))⟩, rest))
    (spaces : ∀ c ∈ before ++ after, c = ' ') (plain : t.kind ≠ .dot ∧ t.kind ≠ .attr)
    (shorter : rest.length < cs.length) (lexes : Query.Lexes rest more)
    : Query.Lexes cs (t :: more) :=
  .cons found ⟨rfl, ⟨before, after, rfl, spaces⟩, fun attr => absurd attr plain.2⟩ plain.1 shorter lexes

theorem Query.lexes_opening (lexes : Query.Lexes ('"' :: rest) more)
    : Query.Lexes ("assign a; Select a pattern a(_, _\"".toList ++ rest)
        (Query.openingTokens ++ more) := by
  have quoted : "assign a; Select a pattern a(_, _\"".toList
      = "assign a; Select a pattern a(_, _".toList ++ ['"'] := by
    decide
  rw [quoted, ← List.append_cons]
  refine @Query.lexes_step ("a; Select a pattern a(_, _".toList ++ '"' :: rest) _ _ [] [' '] _ rfl
    (by simp)
    (by decide) (by simp) ?_
  refine @Query.lexes_step ("; Select a pattern a(_, _".toList ++ '"' :: rest) _ _ [] [] _ rfl (by simp)
    (by decide) (by simp) ?_
  refine @Query.lexes_step (" Select a pattern a(_, _".toList ++ '"' :: rest) _ _ [] [] _ rfl (by simp)
    (by decide) (by simp) ?_
  refine @Query.lexes_step (" a pattern a(_, _".toList ++ '"' :: rest) _ _ [' '] [] _ rfl (by simp)
    (by decide) (by simp) ?_
  refine @Query.lexes_step (" pattern a(_, _".toList ++ '"' :: rest) _ _ [' '] [] _ rfl (by simp)
    (by decide) (by simp) ?_
  refine @Query.lexes_step (" a(_, _".toList ++ '"' :: rest) _ _ [' '] [] _ rfl (by simp)
    (by decide) (by simp) ?_
  refine @Query.lexes_step ("(_, _".toList ++ '"' :: rest) _ _ [' '] [] _ rfl (by simp)
    (by decide) (by simp) ?_
  refine @Query.lexes_step ("_, _".toList ++ '"' :: rest) _ _ [] [] _ rfl (by simp)
    (by decide) (by simp) ?_
  refine @Query.lexes_step (", _".toList ++ '"' :: rest) _ _ [] [] _ rfl (by simp)
    (by decide) (by simp) ?_
  refine @Query.lexes_step (" _".toList ++ '"' :: rest) _ _ [] [] _ rfl (by simp)
    (by decide) (by simp) ?_
  exact @Query.lexes_step ('"' :: rest) _ _ [' '] [] _ rfl (by simp) (by decide) (by simp) lexes

theorem Query.ending_quote (after : Nat) : Ending (List.replicate after ' ' ++ "\"_)".toList) :=
  ending_spaces after (by decide) (by simp [Sparse]; decide)

theorem Query.lexes_after_quote
    : Query.Lexes "_)".toList
        [Query.TokenKind.everything.token, Query.TokenKind.closeParenthesis.token] := by
  refine @Query.lexes_step ")".toList _ _ [] [] _ rfl (by simp) (by decide) (by decide) ?_
  exact @Query.lexes_step [] _ _ [] [] _ rfl (by simp) (by decide) (by decide) .nil

theorem sparse_quote {cs : List Char} (sparse : Sparse cs) : Sparse ('"' :: cs) :=
  .append (List.forall_mem_singleton.mpr (by decide)) sparse

theorem Query.lexes_closing (after : Nat)
    : Query.Lexes (List.replicate after ' ' ++ "\"_)".toList) Query.closingTokens := by
  have found := @Query.scan_lone_quote (List.replicate after ' ') "_)".toList (fun _ => true)
    (fun _ => rfl) (@isBlank_spaces [] after nofun) (Query.ending_quote after).sparse nofun
  refine @Query.lexes_step "_)".toList Query.TokenKind.quote.token _ (List.replicate after ' ') [] _
    found (by simp) (by decide) ?_ Query.lexes_after_quote
  simp

/-- A name that fills the quotes is one token together with them. -/
theorem Query.lexes_quotedName {x : String} (synonym : isSynonym x = true)
    : Query.Lexes ('"' :: (Piece.textOf [⟨0, .name x⟩] 0 ++ "\"_)".toList))
        [⟨.quotedName, Query.inQuotes x⟩, Query.TokenKind.everything.token,
          Query.TokenKind.closeParenthesis.token] := by
  have text : '"' :: (Piece.textOf [⟨0, .name x⟩] 0 ++ "\"_)".toList)
      = (Query.inQuotes x).toList ++ "_)".toList := by
    simp [Piece.textOf, Piece.chars, Mark.chars, Mark.token, Query.inQuotes]
  have sparse : Sparse ((Query.inQuotes x).toList ++ "_)".toList) := by
    have written : Written [⟨0, .name x⟩] := ⟨List.forall_mem_singleton.mpr synonym, by simp⟩
    have whole := sparse_quote (written.sparse (Query.ending_quote 0))
    rw [← text]
    simpa [Piece.textOf] using whole
  rw [text]
  refine @Query.lexes_step _ ⟨.quotedName, Query.inQuotes x⟩ _ [] [] _ ?_ (by simp) ⟨by simp, by simp⟩ ?_
    Query.lexes_after_quote
  · simpa using Query.scan_quotedName (fun _ => rfl) synonym sparse
  · simp [Query.inQuotes]

/-- No closing quote comes directly after a name that does not fill the quotes. -/
theorem Written.not_quoted (written : Written pieces)
    (several : ∀ x, pieces = [⟨0, .name x⟩] → after ≠ 0) {word more : List Char}
    (found : Recogniser.run isLetter Query.isNameChar
      (pieces.flatMap Piece.chars ++ (List.replicate after ' ' ++ "\"_)".toList)) = some (word, more))
    : more.head? ≠ some '"' := by
  have letter {c : Char} {cs : List Char}
      (found : Recogniser.run isLetter Query.isNameChar (c :: cs) = some (word, more))
      : isLetter c = true := by
    by_contra other
    simp [Recogniser.run, other] at found
  cases pieces with
  | nil => cases after <;> exact absurd (letter found) (by decide)
  | cons p pieces =>
    obtain ⟨gap, m⟩ := p
    obtain ⟨c, ds, heading, starts, digits⟩ := Mark.chars_eq (written.spelled ⟨gap, m⟩ (by simp))
    have stops := written.stops (Query.ending_quote after)
    rw [List.flatMap_cons, Piece.chars, heading, List.append_assoc, List.append_assoc] at found
    cases gap with
    | succ n => exact absurd (letter found) (by decide)
    | zero =>
      cases m with
      | name x =>
        have run := @Recogniser.run_append isLetter Query.isNameChar c ds
          (pieces.flatMap Piece.chars ++ (List.replicate after ' ' ++ "\"_)".toList)) starts
          (fun d member => by simp [Query.isNameChar, isLetterOrDigit, digits d member])
          fun d member => by simpa [Mark.stopsAt] using stops d member
        obtain ⟨rfl, rfl⟩ := Prod.mk.inj (Option.some.inj (run.symm.trans found))
        cases pieces with
        | nil =>
          obtain ⟨n, rfl⟩ := Nat.exists_eq_succ_of_ne_zero (several x rfl)
          simp [List.replicate_succ]
        | cons next pieces =>
          have spelled := written.spelled next (by simp)
          obtain ⟨d, head, kind⟩ := @Piece.head?_chars next
            (pieces.flatMap Piece.chars ++ (List.replicate after ' ' ++ "\"_)".toList)) spelled
          rw [List.flatMap_cons, List.append_assoc, head]
          rintro ⟨rfl⟩
          rcases kind with ⟨impossible, -⟩ | ⟨-, starts⟩
          · cases impossible
          · rw [Mark.startsWith_quote] at starts
            cases starts
      | integer _ =>
        have noLetter : isLetter c = false := not_isLetter_of_isDigit starts
        exact absurd (letter found) (by simp [noLetter])
      | plus | minus | times | opening | closing =>
        exact absurd (letter found) (by simp [(isSign_plain starts).2.1])

/-- Otherwise the first quote stands alone. -/
theorem Query.lexes_quoted (written : Written pieces)
    (several : ∀ x, pieces = [⟨0, .name x⟩] → after ≠ 0)
    : Query.Lexes ('"' :: (Piece.textOf pieces after ++ "\"_)".toList))
        (Query.TokenKind.quote.token
          :: ((pieces.map (·.mark)).map Query.markToken ++ Query.closingTokens)) := by
  have inner := Query.lexes_pieces written (Query.ending_quote after) (Query.lexes_closing after)
  have sparse := sparse_quote (written.sparse (Query.ending_quote after))
  have found := @Query.scan_lone_quote [] _ (fun _ => true) (fun _ => rfl) nofun sparse
    fun word more => written.not_quoted several
  rw [Piece.textOf, List.append_assoc]
  exact @Query.lexes_step _ Query.TokenKind.quote.token _ [] [] _ found (by simp) (by decide) (by simp)
    inner

end Lexed

end ProgramQuery

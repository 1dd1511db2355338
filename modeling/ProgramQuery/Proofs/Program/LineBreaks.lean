import ProgramQuery.KnowledgeBase
import ProgramQuery.Proofs.Program.Reading
import ProgramQuery.Proofs.Program.Words

/-! Line breaks in program texts. They are dropped before anything is read, so a line break between two
letters or digits joins them, while anywhere else it is as good as a space. Two texts of the same words
and signs are the same program.
-/

namespace ProgramQuery.Text

/-- The characters of a text that are no white space, each with whether it goes on with a word. White
space ends a word, but line breaks leave no trace. -/
def pieces (inWord : Bool) : List Char → List (Bool × Char)
  | [] => []
  | c :: cs =>
    if c = '\n' then pieces inWord cs
    else if isBlank c then pieces false cs
    else (inWord && isLetterOrDigit c, c) :: pieces (isLetterOrDigit c) cs

theorem pieces_solid {c : Char} (solid : isBlank c = false) (inWord : Bool) (cs : List Char)
    : pieces inWord (c :: cs)
      = (inWord && isLetterOrDigit c, c) :: pieces (isLetterOrDigit c) cs := by
  have noBreak : c ≠ '\n' := by
    rintro rfl
    exact absurd solid (by decide)
  simp [pieces, noBreak, solid]

theorem pieces_filter (inWord : Bool) (cs : List Char)
    : pieces inWord (cs.filter (· != '\n')) = pieces inWord cs := by
  fun_induction pieces inWord cs <;> simp_all [pieces]

/-- Outside a word the next piece begins one or is a sign. -/
theorem takeWhile_pieces_false (cs : List Char)
    : (pieces false cs).takeWhile (·.1) = [] ∧ (pieces false cs).dropWhile (·.1) = pieces false cs := by
  generalize outside : false = inWord
  fun_induction pieces inWord cs <;> simp_all

theorem pieces_blanks {gap : List Char} (blank : ∀ c ∈ gap, isBlank c) (unbroken : '\n' ∉ gap)
    (cs : List Char)
    : pieces false (gap ++ cs) = pieces false cs := by
  induction gap with
  | nil => rfl
  | cons c gap ih =>
    simp only [List.mem_cons, not_or] at unbroken
    simp only [List.cons_append, pieces, if_neg (Ne.symm unbroken.1), if_pos (blank c (by simp))]
    exact ih (fun d member => blank d (by simp [member])) unbroken.2

variable {cs : List Char}

/-- Where no word goes on it does not matter whether one came before. -/
theorem pieces_of_stop (unbroken : '\n' ∉ cs)
    (stops : ∀ c ∈ cs.head?, isLetterOrDigit c = false) (inWord : Bool)
    : pieces inWord cs = pieces false cs := by
  cases cs with
  | nil => rfl
  | cons c cs =>
    simp only [List.mem_cons, not_or] at unbroken
    simp [pieces, Ne.symm unbroken.1, stops c (by simp)]

/-- The word that a text goes on with can be told from its pieces. -/
theorem pieces_split (unbroken : '\n' ∉ cs)
    : (pieces true cs).takeWhile (·.1) = (cs.takeWhile isLetterOrDigit).map (true, ·)
      ∧ (pieces true cs).dropWhile (·.1) = pieces true (cs.dropWhile isLetterOrDigit) := by
  induction cs with
  | nil => exact ⟨rfl, rfl⟩
  | cons c cs ih =>
    cases plain : isLetterOrDigit c with
    | true =>
      simp only [List.mem_cons, not_or] at unbroken
      have solid := not_isBlank_of_isLetterOrDigit plain
      simpa [pieces, Ne.symm unbroken.1, solid, plain] using ih unbroken.2
    | false =>
      have outside := pieces_of_stop unbroken (by simpa using plain) true
      rw [List.takeWhile_cons_of_neg (by simp [plain]), List.dropWhile_cons_of_neg (by simp [plain]),
        outside]
      exact takeWhile_pieces_false _

/-- The same word in front of the same pieces makes the same pieces. -/
theorem pieces_append {word rest rest' : List Char} (plain : ∀ c ∈ word, isLetterOrDigit c = true)
    (same : ∀ inWord, pieces inWord rest = pieces inWord rest') (inWord : Bool)
    : pieces inWord (word ++ rest) = pieces inWord (word ++ rest') := by
  induction word generalizing inWord with
  | nil => exact same inWord
  | cons c word ih =>
    have ih := fun inWord => ih (fun d member => plain d (by simp [member])) inWord
    simp only [List.cons_append, pieces, ih]

end ProgramQuery.Text

namespace ProgramQuery.Program

open Text

theorem Token.ofWord_plain {word : List Char} (plain : ∀ c ∈ word, isLetterOrDigit c = true)
    : ∀ c ∈ (Token.ofWord word).2, isLetterOrDigit c = true := by
  intro c member
  unfold Token.ofWord at member
  split at member
  · exact plain c (List.mem_of_mem_drop member)
  · split at member
    · cases member
    · exact plain c ((List.dropWhile_suffix _).subset member)

/-- A text is white space, or there is a first character behind its white space. -/
theorem blank_or_solid (cs : List Char)
    : ∃ gap, (∀ c ∈ gap, isBlank c)
      ∧ (cs = gap ∨ ∃ c rest, cs = gap ++ c :: rest ∧ isBlank c = false) := by
  refine ⟨cs.takeWhile isBlank, fun c => List.mem_takeWhile_imp, ?_⟩
  have whole := @List.takeWhile_append_dropWhile _ isBlank cs
  have first := List.head?_dropWhile_not isBlank cs
  cases solid : cs.dropWhile isBlank with
  | nil =>
    rw [solid, List.append_nil] at whole
    exact .inl whole.symm
  | cons c rest =>
    rw [solid] at whole first
    exact .inr ⟨c, rest, whole.symm, by simpa using first⟩

/-- What begins with a letter or digit is a word and something that does not go on with it. -/
theorem word_append {c : Char} (plain : isLetterOrDigit c = true) (rest : List Char)
    : (∀ d ∈ c :: rest.takeWhile isLetterOrDigit, isLetterOrDigit d = true)
      ∧ (∀ d ∈ (rest.dropWhile isLetterOrDigit).head?, isLetterOrDigit d = false)
      ∧ c :: rest = (c :: rest.takeWhile isLetterOrDigit) ++ rest.dropWhile isLetterOrDigit := by
  refine ⟨?_, ?_, ?_⟩
  · simpa [plain] using fun d (member : d ∈ rest.takeWhile isLetterOrDigit) =>
      List.mem_takeWhile_imp member
  · intro d member
    have first := List.head?_dropWhile_not isLetterOrDigit rest
    rw [member] at first
    simpa using first
  · rw [List.cons_append, List.takeWhile_append_dropWhile]

/-- Texts of the same pieces have the same tokens. -/
theorem tokensIn_of_pieces {cs cs' : List Char} (unbroken : '\n' ∉ cs) (unbroken' : '\n' ∉ cs')
    (same : pieces false cs = pieces false cs')
    : tokensIn cs = tokensIn cs' := by
  generalize size : cs.length = n
  induction n using Nat.strong_induction_on generalizing cs cs' with
  | _ n ih =>
  subst size
  obtain ⟨gap, blank, whole⟩ := blank_or_solid cs
  obtain ⟨gap', blank', whole'⟩ := blank_or_solid cs'
  have nothing {gap : List Char} (blank : ∀ c ∈ gap, isBlank c) (unbroken : '\n' ∉ gap)
      : pieces false gap = [] := by
    simpa [pieces] using pieces_blanks blank unbroken []
  rcases whole with rfl | ⟨c, rest, rfl, solid⟩ <;>
    rcases whole' with rfl | ⟨c', rest', rfl, solid'⟩
  · rw [tokensIn_of_scan_none (Token.scan_blanks blank), tokensIn_of_scan_none (Token.scan_blanks blank')]
  · simp only [List.mem_append, not_or] at unbroken'
    rw [nothing blank unbroken, pieces_blanks blank' unbroken'.1, pieces_solid solid'] at same
    cases same
  · simp only [List.mem_append, not_or] at unbroken
    rw [nothing blank' unbroken', pieces_blanks blank unbroken.1, pieces_solid solid] at same
    cases same
  · simp only [List.mem_append, List.mem_cons, not_or] at unbroken unbroken'
    rw [pieces_blanks blank unbroken.1, pieces_blanks blank' unbroken'.1, pieces_solid solid,
      pieces_solid solid'] at same
    simp only [List.cons.injEq, Prod.mk.injEq] at same
    obtain ⟨⟨-, rfl⟩, same⟩ := same
    cases plain : isLetterOrDigit c with
    | false =>
      rw [plain] at same
      have found := @Token.scan_sign gap rest c blank solid plain
      have found' := @Token.scan_sign gap' rest' c blank' solid plain
      cases kind : TokenKind.all.find? (·.spelling.toList == [c]) with
      | none =>
        rw [kind] at found found'
        rw [tokensIn_of_scan_none found, tokensIn_of_scan_none found']
      | some kind' =>
        rw [kind] at found found'
        have shorter := (Token.scan_eq_some found).2
        rw [tokensIn_of_scan found, tokensIn_of_scan found',
          ih _ shorter unbroken.2.2 unbroken'.2.2 same rfl]
    | true =>
      rw [plain] at same
      obtain ⟨letters, stops, split⟩ := word_append plain rest
      obtain ⟨-, stops', split'⟩ := word_append plain rest'
      obtain ⟨front, back⟩ := pieces_split unbroken.2.2
      obtain ⟨front', back'⟩ := pieces_split unbroken'.2.2
      rw [same, front'] at front
      have sameWord : rest'.takeWhile isLetterOrDigit = rest.takeWhile isLetterOrDigit :=
        List.map_injective_iff.mpr (Prod.mk_right_injective true) front
      rw [same, back'] at back
      rw [sameWord] at split'
      generalize rest.takeWhile isLetterOrDigit = word at letters split split'
      have unbroken : '\n' ∉ rest.dropWhile isLetterOrDigit := fun member =>
        unbroken.2.2 ((List.dropWhile_suffix _).subset member)
      have unbroken' : '\n' ∉ rest'.dropWhile isLetterOrDigit := fun member =>
        unbroken'.2.2 ((List.dropWhile_suffix _).subset member)
      obtain ⟨_, found⟩ := Token.scan_word blank letters stops (List.cons_ne_nil _ _)
      obtain ⟨_, found'⟩ := Token.scan_word blank' letters stops' (List.cons_ne_nil _ _)
      rw [← split] at found
      rw [← split'] at found'
      have shorter := (Token.scan_eq_some found).2
      have left := Token.ofWord_plain letters
      have rests := fun inWord =>
        calc pieces inWord (rest.dropWhile isLetterOrDigit)
          _ = pieces false _ := pieces_of_stop unbroken stops inWord
          _ = pieces true _ := (pieces_of_stop unbroken stops true).symm
          _ = pieces true (rest'.dropWhile isLetterOrDigit) := back.symm
          _ = pieces false _ := pieces_of_stop unbroken' stops' true
          _ = pieces inWord _ := (pieces_of_stop unbroken' stops' inWord).symm
      have noBreak {rest : List Char} (unbroken : '\n' ∉ rest)
          : '\n' ∉ (Token.ofWord (c :: word)).2 ++ rest := by
        intro member
        rcases List.mem_append.mp member with member | member
        · exact absurd (left _ member) (by decide)
        · exact unbroken member
      rw [tokensIn_of_scan found, tokensIn_of_scan found',
        ih _ shorter (noBreak unbroken) (noBreak unbroken') (pieces_append left rests false) rfl]

namespace Parser

variable {α β : Type} {inner inner' : Parser Expr}

/-- Two parsers look at the same token and have the same tokens before them. -/
structure Alike (s s' : ParserState) : Prop where
  next : s.next = s'.next
  tokens : tokensIn s.rest = tokensIn s'.rest

/-- Two results are alike, or one of them is that the step budget ran out. -/
inductive Agree
    : EStateM.Result Failure ParserState α → EStateM.Result Failure ParserState α → Prop
  | ok {a : α} {s s' : ParserState} (alike : Alike s s') : Agree (.ok a s) (.ok a s')
  | error {failure : Failure} {s s' : ParserState} : Agree (.error failure s) (.error failure s')
  | left {s : ParserState} {r : EStateM.Result Failure ParserState α} : Agree (.error .exhausted s) r
  | right {s : ParserState} {r : EStateM.Result Failure ParserState α} : Agree r (.error .exhausted s)

/-- Two parsers do alike wherever what is before them is alike. -/
def Simulates (m m' : Parser α) : Prop :=
  ∀ s s', Alike s s' → Agree (m s) (m' s')

namespace Simulates

theorem pure (a : α) : Simulates (Pure.pure a) (Pure.pure a) :=
  fun _ _ alike => .ok alike

theorem throw (failure : Failure)
    : Simulates (α := α) (MonadExcept.throw failure) (MonadExcept.throw failure) :=
  fun _ _ _ => .error

variable {m : Parser α}

theorem bind {m' : Parser α} {f f' : α → Parser β} (first : Simulates m m')
    (next : ∀ a, Simulates (f a) (f' a))
    : Simulates (m >>= f) (m' >>= f') := by
  intro s s' alike
  have agree := first s s' alike
  simp only [Bind.bind, EStateM.bind]
  generalize m s = result at agree
  generalize m' s' = result' at agree
  cases agree with
  | ok alike => exact next _ _ _ alike
  | error => exact .error
  | left => exact .left
  | right => exact .right

theorem discard (same : Simulates m m)
    : Simulates (Functor.discard m) (Functor.discard m) := by
  intro s s' alike
  have agree := same s s' alike
  simp only [Functor.discard, Functor.mapConst, EStateM.map, Function.comp]
  generalize m s = result at agree
  generalize m s' = result' at agree
  cases agree with
  | ok alike => exact .ok alike
  | error => exact .error
  | left => exact .left
  | right => exact .right

/-- The budgets of the two states may differ. -/
theorem of_budget {m : Nat → Parser α} (same : ∀ fuel fuel', Simulates (m fuel) (m fuel'))
    : Simulates (fun s => m s.budget s) (fun s => m s.budget s) :=
  fun _ _ alike => same _ _ _ _ alike

end Simulates

theorem alike_advance {s s' : ParserState} (tokens : tokensIn s.rest = tokensIn s'.rest)
    : Alike s.advance s'.advance := by
  cases found : Token.scan s.rest with
  | none =>
    cases found' : Token.scan s'.rest with
    | none => exact ⟨by simp [ParserState.advance, ParserState.read, found, found'],
        by simpa [ParserState.advance, ParserState.read, found, found'] using tokens⟩
    | some result =>
      rw [tokensIn_of_scan_none found, tokensIn_of_scan found'] at tokens
      cases tokens
  | some result =>
    rw [tokensIn_of_scan found] at tokens
    cases found' : Token.scan s'.rest with
    | none =>
      rw [tokensIn_of_scan_none found'] at tokens
      cases tokens
    | some result' =>
      rw [tokensIn_of_scan found', List.cons.injEq] at tokens
      exact ⟨by simp [ParserState.advance, ParserState.read, found, found', tokens.1],
        by simpa [ParserState.advance, ParserState.read, found, found'] using tokens.2⟩

theorem Alike.shifted {s s' : ParserState} (alike : Alike s s') : Alike s.shifted s'.shifted :=
  have ahead := alike_advance alike.tokens
  ⟨ahead.next, ahead.tokens⟩

theorem simulates_peek : Simulates peek peek := by
  intro s s' alike
  have looked (s : ParserState) : peek s = .ok s.next.kind? s := rfl
  rw [looked, looked, alike.next]
  exact .ok alike

theorem simulates_shift : Simulates shift shift :=
  fun _ _ alike => .ok alike.shifted

theorem simulates_expect (wanted : TokenKind) : Simulates (expect wanted) (expect wanted) := by
  intro s s' alike
  rw [expect_eq, expect_eq, alike.next]
  split
  · exact .ok alike.shifted
  · exact .error

theorem simulates_word (wanted : TokenKind)
    : Simulates (discard (expect wanted)) (discard (expect wanted)) :=
  (simulates_expect wanted).discard

theorem simulates_chain {operator? : TokenKind → Option Operator} {operand operand' : Parser Expr}
    (same : Simulates operand operand') (fuel fuel' : Nat) (left : Expr)
    : Simulates (chain operator? operand fuel left) (chain operator? operand' fuel' left) := by
  induction fuel generalizing fuel' left with
  | zero => exact fun _ _ _ => .left
  | succ fuel ih =>
    cases fuel' with
    | zero => exact fun _ _ _ => .right
    | succ fuel' =>
      refine simulates_peek.bind fun kind => ?_
      split
      · exact simulates_shift.bind fun _ => same.bind fun right => ih fuel' _
      · exact .pure _

theorem simulates_factorWith (same : Simulates inner inner')
    : Simulates (factorWith inner) (factorWith inner') := by
  refine simulates_peek.bind fun kind => ?_
  split
  · exact simulates_shift.bind fun _ => same.bind fun e => (simulates_word _).bind fun _ => .pure e
  · exact (simulates_expect _).bind fun _ => .pure _
  · exact (simulates_expect _).bind fun _ => .pure _
  · exact .throw _

theorem simulates_termWith (same : Simulates inner inner')
    (fuel fuel' : Nat)
    : Simulates (termWith fuel inner) (termWith fuel' inner') :=
  (simulates_factorWith same).bind fun first => simulates_chain (simulates_factorWith same) _ _ first

theorem simulates_expressionWithin (fuel fuel' : Nat)
    : Simulates (expressionWithin fuel) (expressionWithin fuel') := by
  induction fuel generalizing fuel' with
  | zero => exact fun _ _ _ => .left
  | succ fuel ih =>
    cases fuel' with
    | zero => exact fun _ _ _ => .right
    | succ fuel' =>
      have term := simulates_termWith (ih fuel') fuel fuel'
      exact term.bind fun first => simulates_chain term _ _ first

theorem simulates_assignment : Simulates assignment assignment :=
  (simulates_expect _).bind fun _ => (simulates_word _).bind fun _ =>
    (Simulates.of_budget simulates_expressionWithin).bind fun _ =>
      (simulates_word _).bind fun _ => .pure _

theorem simulates_call : Simulates call call :=
  (simulates_word _).bind fun _ => (simulates_expect _).bind fun _ =>
    (simulates_word _).bind fun _ => .pure _

section Nested

variable {statements statements' : Parser (List Stmt)} (same : Simulates statements statements')
include same

theorem simulates_loopWith : Simulates (loopWith statements) (loopWith statements') := by
  refine (simulates_word _).bind fun _ => (simulates_expect _).bind fun _ =>
    (simulates_word _).bind fun _ => same.bind fun body => ?_
  split
  · exact (Simulates.throw _).bind fun _ => (simulates_word _).bind fun _ => .pure _
  · exact (simulates_word _).bind fun _ => .pure _

theorem simulates_branchWith : Simulates (branchWith statements) (branchWith statements') :=
  (simulates_word _).bind fun _ => (simulates_expect _).bind fun _ =>
    (simulates_word _).bind fun _ => (simulates_word _).bind fun _ => same.bind fun _ =>
      (simulates_word _).bind fun _ => (simulates_word _).bind fun _ =>
        (simulates_word _).bind fun _ => same.bind fun _ => (simulates_word _).bind fun _ => .pure _

theorem simulates_statementWith
    : Simulates (statementWith statements) (statementWith statements') := by
  have counted : Simulates (modify fun s => { s with line := s.line + 1 })
      (modify fun s => { s with line := s.line + 1 }) :=
    fun _ _ alike => .ok ⟨alike.next, alike.tokens⟩
  refine counted.bind fun _ => simulates_peek.bind fun kind => ?_
  split
  · exact simulates_loopWith same
  · exact simulates_call
  · exact simulates_branchWith same
  · exact simulates_assignment

end Nested

theorem simulates_statementsFrom {statement statement' : Parser Stmt}
    (same : Simulates statement statement') (fuel fuel' : Nat) (before : Option Stmt)
    : Simulates (statementsFrom statement fuel before) (statementsFrom statement' fuel' before) := by
  induction fuel generalizing fuel' before with
  | zero => exact fun _ _ _ => .left
  | succ fuel ih =>
    cases fuel' with
    | zero => exact fun _ _ _ => .right
    | succ fuel' =>
      refine simulates_peek.bind fun kind => ?_
      split
      · exact .pure _
      · refine same.bind fun s => ?_
        have rest := (ih fuel' (some s)).bind fun rest => .pure (s :: rest)
        split
        · exact (Simulates.throw _).bind fun _ => rest
        · exact rest

theorem simulates_statementsWithin (fuel fuel' : Nat)
    : Simulates (statementsWithin fuel) (statementsWithin fuel') := by
  induction fuel generalizing fuel' with
  | zero => exact fun _ _ _ => .left
  | succ fuel ih =>
    cases fuel' with
    | zero => exact fun _ _ _ => .right
    | succ fuel' => exact simulates_statementsFrom (simulates_statementWith (ih fuel')) _ _ none

theorem simulates_procedure : Simulates procedure procedure :=
  (simulates_word _).bind fun _ => (simulates_expect _).bind fun _ =>
    (simulates_word _).bind fun _ => (Simulates.of_budget simulates_statementsWithin).bind fun _ =>
      (simulates_word _).bind fun _ => .pure _

theorem simulates_procedures (fuel fuel' : Nat)
    : Simulates (procedures fuel) (procedures fuel') := by
  induction fuel generalizing fuel' with
  | zero => exact fun _ _ _ => .left
  | succ fuel ih =>
    cases fuel' with
    | zero => exact fun _ _ _ => .right
    | succ fuel' =>
      refine simulates_peek.bind fun kind => ?_
      split
      · exact simulates_procedure.bind fun _ => (ih fuel').bind fun _ => .pure _
      · exact .pure _

/-- Texts of the same tokens are the same program, or are refused alike. -/
theorem program_of_tokens {code code' : String}
    (tokens : tokensIn (ParserState.start code).rest = tokensIn (ParserState.start code').rest)
    : (∃ p stop stop', program (.start code) = .ok p stop ∧ program (.start code') = .ok p stop')
      ∨ ∃ failure stop stop', program (.start code) = .error failure stop
        ∧ program (.start code') = .error failure stop' := by
  have agree : Agree (program (.start code)) (program (.start code')) :=
    ((Simulates.of_budget simulates_procedures).bind fun _ => .pure _) _ _ (alike_advance tokens)
  have gives := gives_program code
  have gives' := gives_program code'
  simp only [Gives] at gives gives'
  generalize program (.start code) = result at agree gives
  generalize program (.start code') = result' at agree gives'
  cases agree with
  | ok => exact .inl ⟨_, _, _, rfl, rfl⟩
  | error => exact .inr ⟨_, _, _, rfl, rfl⟩
  | left => exact gives.elim
  | right => exact gives'.elim

end Parser

end ProgramQuery.Program

namespace ProgramQuery

open Program Text

/-- Two texts of the same pieces, which differ only in line breaks and other white space
that no word needs, are both refused for the same reason or both accepted, and then they are the same
program with the same tables.
-/
theorem Analysis.ofText_of_pieces {code code' : String}
    (same : pieces false code.toList = pieces false code'.toList)
    : (Analysis.ofText code).map (fun a => (a.program, a.knowledge))
      = (Analysis.ofText code').map fun a => (a.program, a.knowledge) := by
  have unbroken (code : String) : '\n' ∉ (ParserState.start code).rest := by
    simp [ParserState.start]
  have tokens := tokensIn_of_pieces (unbroken code) (unbroken code')
    (by simpa only [ParserState.start, pieces_filter] using same)
  rcases Parser.program_of_tokens tokens with ⟨p, stop, stop', read, read'⟩
    | ⟨failure, stop, stop', read, read'⟩
  · simp only [Analysis.ofText, read, read']
    cases KnowledgeBase.ofProgram? p <;> rfl
  · simp only [Analysis.ofText, read, read', Except.map]

/-- Spaces beside brackets, signs and other spaces are exchanged for line breaks. -/
theorem Analysis.ofText_of_pieces_broken
    : pieces false "procedure p \x7b x = 1; \x7d".toList
        = pieces false "procedure p\n\x7b\nx\n=\n1;\n\x7d".toList
      ∧ (Analysis.ofText "procedure p \x7b x = 1; \x7d").map (fun a => (a.program, a.knowledge))
        = (Analysis.ofText "procedure p\n\x7b\nx\n=\n1;\n\x7d").map
          fun a => (a.program, a.knowledge) :=
  ⟨by decide, Analysis.ofText_of_pieces (by decide)⟩

/-- A line break inside a number is as good as none, and a space is not. -/
theorem Analysis.ofText_joins_numbers
    : (Analysis.ofText "procedure p \x7b x = 1\n2; \x7d").map (·.knowledge.variableNames) = .ok ["x"]
      ∧ (Analysis.ofText "procedure p \x7b x = 1 2; \x7d").map (·.knowledge.variableNames)
        = .error .rejected := by
  decide +kernel

end ProgramQuery

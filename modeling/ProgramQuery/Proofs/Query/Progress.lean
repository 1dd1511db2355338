import ProgramQuery.Proofs.Query.Leftovers

/-! Reading a query makes progress. Every turn of a loop and every nested expression comes after a token
that has been taken, so there are no more turns than characters and the budget of a text is never used up.
-/

namespace ProgramQuery.Query

open Text

theorem TokenKind.recognise_ne_nil {kind : TokenKind} {cs lexeme rest : List Char}
    (found : kind.recognise cs = some (lexeme, rest))
    : lexeme ≠ [] := by
  have run {first more : Char → Bool} {cs lexeme rest : List Char}
      (found : Recogniser.run first more cs = some (lexeme, rest)) : lexeme ≠ [] := by
    cases cs with
    | nil => cases found
    | cons c cs =>
      simp only [Recogniser.run] at found
      split at found <;> cases found
      simp
  have spaced {r : Recogniser} {cs lexeme rest : List Char}
      (solid : ∀ {cs lexeme rest}, r cs = some (lexeme, rest) → lexeme ≠ [])
      (found : r.spaced cs = some (lexeme, rest)) : lexeme ≠ [] := by
    obtain ⟨word, rfl, taken⟩ := Recogniser.spaced_eq_some found
    simp [solid taken]
  have word {w : String} {cs lexeme rest : List Char} (solid : w.toList ≠ [])
      (found : Recogniser.word w cs = some (lexeme, rest)) : lexeme ≠ [] := by
    refine spaced (fun taken => ?_) found
    obtain ⟨rfl, -⟩ := Recogniser.literal_eq_some taken
    exact solid
  have seq {first second : Recogniser}
      (solid : ∀ {cs lexeme rest}, first cs = some (lexeme, rest) → lexeme ≠ [])
      (found : Recogniser.seq first second cs = some (lexeme, rest)) : lexeme ≠ [] := by
    obtain ⟨a, b, middle, taken, -, rfl⟩ := Recogniser.seq_eq_some found
    simp [solid taken]
  cases kind with
  | attr =>
    obtain ⟨r, listed, taken⟩ := List.exists_of_findSome?_eq_some found
    obtain ⟨w, -, rfl⟩ := List.mem_map.mp listed
    refine seq (fun {cs lexeme rest} taken => ?_) taken
    cases cs with
    | nil => cases taken
    | cons c cs =>
      simp only [Recogniser.one] at taken
      split at taken <;> cases taken
      simp
  | declaration =>
    obtain ⟨r, listed, taken⟩ := List.exists_of_findSome?_eq_some found
    obtain ⟨w, known, rfl⟩ := List.mem_map.mp listed
    have solid : ∀ w ∈ entityWords, w.toList ≠ [] := by decide
    exact seq (word (solid w known)) taken
  | quotedName => exact seq (word (by decide)) found
  | name => exact spaced run found
  | integer => exact spaced run found
  | relation r => exact word (by cases r <;> decide) found
  | _ => exact word (by decide) found

/-- No token is empty. -/
theorem Token.text_ne_nil {admitted : TokenKind → Bool} {cs rest : List Char} {t : Token}
    (scanned : Token.scan admitted cs = some (t, rest))
    : t.text.toList ≠ [] := by
  obtain ⟨kind, -, found⟩ := List.exists_of_findSome?_eq_some scanned
  split at found <;> try cases found
  split at found <;> cases found
  next accepted => simpa using TokenKind.recognise_ne_nil accepted

namespace ParserState

variable {s : ParserState}

/-- The characters that have not been read, and the lookahead. This is less once a token has been
taken. -/
def left (s : ParserState) : Nat :=
  s.rest.length + s.next.toList.length

theorem left_advance (s : ParserState) : s.advance.left ≤ s.rest.length := by
  simp only [left, advance, read]
  split
  · next t rest scanned =>
    have solid := List.length_pos_of_ne_nil (Token.text_ne_nil scanned)
    rw [Token.scan_split scanned, List.length_append]
    simp only [Option.toList_some, List.length_singleton]
    omega
  · simp

theorem rest_lt_left (present : s.next.isSome) : s.rest.length < s.left := by
  obtain ⟨t, next⟩ := Option.isSome_iff_exists.mp present
  simp [left, next]

theorem left_budget (s : ParserState) : s.left + 2 ≤ s.budget := by
  unfold left budget
  cases s.next <;> simp

end ParserState

namespace Parser

variable {α β : Type} {enough : Prop} {scope : Scope} {s : ParserState} {m m' : Parser α}
  {n k : Nat} {text : Option Token → String}

/-- Two parsers do the same in a state. Where they end, no more than a number is left, and where the
budget is large enough, it is not used up. -/
def Goes (enough : Prop) (scope : Scope) (s : ParserState) (m m' : Parser α) (n : Nat) : Prop :=
  m' scope s = m scope s ∧ match m scope s with
    | .ok _ s' => s'.left ≤ n
    | .error failure _ => enough → failure ≠ .exhausted

abbrev Leaves (enough : Prop) (scope : Scope) (s : ParserState) (m : Parser α) (n : Nat) : Prop :=
  Goes enough scope s m m n

theorem Goes.bind {f f' : α → Parser β} (first : Goes enough scope s m m' k)
    (next : ∀ a s', s'.left ≤ k → Goes enough scope s' (f a) (f' a) n)
    : Goes enough scope s (m >>= f) (m' >>= f') n := by
  obtain ⟨same, leaves⟩ := first
  unfold Goes
  simp only [Bind.bind, ReaderT.bind, EStateM.bind, same]
  split at leaves
  · next a s' ended => simpa only [ended, Goes] using next a s' leaves
  · next ended => simpa only [ended, true_and] using leaves

theorem Goes.mono {less : Prop} (goes : Goes enough scope s m m' k) (le : k ≤ n)
    (suffices_ : less → enough)
    : Goes less scope s m m' n := by
  obtain ⟨same, leaves⟩ := goes
  refine ⟨same, ?_⟩
  split at leaves
  · next ended => simpa only [ended] using leaves.trans le
  · next ended => simpa only [ended] using fun given => leaves (suffices_ given)

theorem Goes.get {f f' : ParserState → Parser α} (goes : Goes enough scope s (f s) (f' s) n)
    : Goes enough scope s (MonadState.get >>= f) (MonadState.get >>= f') n :=
  goes

theorem Goes.peek {f f' : Option TokenKind → Parser α}
    (goes : Goes enough scope s (f (s.next.map (·.kind))) (f' (s.next.map (·.kind))) n)
    : Goes enough scope s (Parser.peek >>= f) (Parser.peek >>= f') n :=
  goes

theorem isSome_of_kind {kind : TokenKind} (found : s.next.map (·.kind) = some kind) : s.next.isSome := by
  simpa using congrArg Option.isSome found

section Taking

variable {f f' : Unit → Parser β}
  (next : ∀ s', s'.left < s.left → Goes enough scope s' (f ()) (f' ()) n)
include next

/-- A token is taken. -/
theorem goes_shift (present : s.next.isSome) : Goes enough scope s (shift >>= f) (shift >>= f') n :=
  next s.shifted ((ParserState.left_advance _).trans_lt (ParserState.rest_lt_left present))

theorem goes_expect {kind : TokenKind}
    : Goes enough scope s (expect kind >>= f) (expect kind >>= f') n := by
  by_cases title : titleOf s.next = kind.title
  · have taken : expect kind scope s = shift scope s := by
      change (if titleOf s.next = kind.title then shift else throw _) scope s = _
      rw [if_pos title]
    have present : s.next.isSome := by
      refine Option.isSome_iff_ne_none.mpr fun nothing => ?_
      rw [nothing] at title
      revert title
      cases kind with
      | relation r => cases r <;> decide
      | _ => decide
    have goes := goes_shift next present
    simpa only [Goes, Bind.bind, ReaderT.bind, EStateM.bind, taken] using goes
  · have refused : expect kind scope s = .error (.mismatch (titleOf s.next) kind.title) s := by
      change (if titleOf s.next = kind.title then shift else throw _) scope s = _
      rw [if_neg title]
      rfl
    simp [Goes, Bind.bind, ReaderT.bind, EStateM.bind, refused]

end Taking

/-- Whatever the state, no more is left than before. -/
structure Tame (m : Parser α) : Prop where
  leaves : ∀ {enough scope s n}, s.left ≤ n → Leaves enough scope s m n

theorem Tame.bind {f : α → Parser β} (first : Tame m) (next : ∀ a, Tame (f a)) : Tame (m >>= f) :=
  ⟨fun low => (first.leaves low).bind fun a _ => (next a).leaves⟩

theorem Tame.pure {a : α} : Tame (Pure.pure a) := ⟨fun low => ⟨rfl, low⟩⟩

theorem Tame.throw {failure : Failure} (other : failure ≠ .exhausted) : Tame (throw failure : Parser α) :=
  ⟨fun _ => ⟨rfl, fun _ => other⟩⟩

theorem tame_get : Tame MonadState.get := ⟨fun low => ⟨rfl, low⟩⟩

theorem tame_read : Tame MonadReader.read := ⟨fun low => ⟨rfl, low⟩⟩

theorem tame_peek : Tame peek := ⟨fun low => ⟨rfl, low⟩⟩

theorem tame_takenLeaf : Tame (takenLeaf text) := ⟨fun low => ⟨rfl, low⟩⟩

theorem tame_noAnswer : Tame (noAnswer : Parser α) := ⟨fun _ => ⟨rfl, fun _ => by simp⟩⟩

theorem tame_shift : Tame shift :=
  ⟨fun low => ⟨rfl, (ParserState.left_advance _).trans ((Nat.le_add_right _ _).trans low)⟩⟩

theorem tame_expectTitle {title : String} : Tame (expectTitle title) := by
  refine tame_get.bind fun s => ?_
  split
  · exact tame_shift
  · exact .throw (by simp)

theorem Tame.ite {c : Prop} [Decidable c] (yes : Tame m) (no : Tame m')
    : Tame (if c then m else m') := by
  split
  · exact yes
  · exact no

/-- A check that may fail before the rest is read. -/
theorem Tame.unless {c : Prop} [Decidable c] {check : Parser Unit} (tame : Tame check) (rest : Tame m)
    : Tame (do
        if c then check
        m) :=
  .ite (tame.bind fun _ => rest) rest

theorem tame_numeral {text : String} : Tame (numeral text) := by
  unfold numeral
  split
  · exact .pure
  · exact .throw (by simp)

theorem tame_typed {complaint : String → String} : Tame (typed complaint) := by
  have declared {x : String} : Tame (declaredType x) := tame_get.bind fun _ => .pure
  refine tame_expectTitle.bind fun _ => tame_get.bind fun _ => declared.bind fun type => ?_
  split
  · exact .pure
  · exact .throw (by simp)

theorem tame_lineNumber : Tame (lineNumber text) :=
  tame_get.bind fun _ => tame_numeral.bind fun _ => tame_read.bind fun _ =>
    .unless tame_noAnswer tame_expectTitle

theorem tame_stmtRef : Tame stmtRef := by
  refine tame_peek.bind fun kind => ?_
  split
  · exact tame_typed.bind fun _ => .ite .pure (.throw (by simp))
  · exact tame_expectTitle.bind fun _ => tame_takenLeaf
  · exact tame_lineNumber.bind fun _ => tame_takenLeaf
  · exact tame_takenLeaf

theorem tame_procRef : Tame procRef := by
  refine tame_peek.bind fun kind => ?_
  split
  · exact tame_typed.bind fun _ => .ite .pure (.throw (by simp))
  · exact tame_expectTitle.bind fun _ => tame_takenLeaf
  · exact tame_read.bind fun _ => tame_get.bind fun _ =>
      .unless tame_noAnswer (tame_expectTitle.bind fun _ => tame_takenLeaf)
  · exact tame_takenLeaf

theorem tame_varRef : Tame varRef := by
  refine tame_peek.bind fun kind => ?_
  split
  · exact tame_typed.bind fun _ => .ite .pure (.throw (by simp))
  · exact tame_expectTitle.bind fun _ => tame_takenLeaf
  · exact tame_read.bind fun _ => tame_get.bind fun _ => tame_expectTitle.bind fun _ =>
      .ite .pure tame_takenLeaf
  · exact tame_noAnswer.bind fun _ => tame_takenLeaf

theorem tame_alikeArguments {reference : Parser Tree} {reflexive : Bool} (tame : Tame reference)
    : Tame (alikeArguments reference reflexive) :=
  tame.bind fun _ => tame_expectTitle.bind fun _ => tame.bind fun _ =>
    .unless tame_noAnswer .pure

theorem tame_effectArguments : Tame effectArguments := by
  have second (first : Tree) : Tame (do
      expect .comma
      let second ← varRef
      return [first, second]) :=
    tame_expectTitle.bind fun _ => tame_varRef.bind fun _ => .pure
  refine tame_peek.bind fun kind => ?_
  split
  · exact tame_get.bind fun _ => tame_get.bind fun _ =>
      .ite (tame_procRef.bind second) (tame_stmtRef.bind second)
  · exact tame_stmtRef.bind second
  · exact tame_procRef.bind second

theorem tame_relRef : Tame relRef := by
  have effect (title : String) : Tame (effectRelation title) := by
    have rest (known : Bool) (arguments : List Tree) : Tame (do
        expect .closeParenthesis
        if !known then throw .noEffect
        if arguments.any (·.label?.isNone) then noAnswer
        return .node title "" 0 arguments : Parser Tree) :=
      tame_expectTitle.bind fun _ => .unless (.throw (by simp)) (.unless tame_noAnswer .pure)
    exact tame_expectTitle.bind fun _ => tame_expectTitle.bind fun _ =>
      .ite (tame_effectArguments.bind (rest _)) (rest _ _)
  have alike (title : String) : Tame (alikeRelation title) := by
    have rest (arguments : List Tree) : Tame (do
        expect .closeParenthesis
        return .node title "" 0 arguments : Parser Tree) :=
      tame_expectTitle.bind fun _ => .pure
    exact tame_expectTitle.bind fun _ => tame_expectTitle.bind fun _ =>
      .ite ((tame_alikeArguments tame_stmtRef).bind rest)
        (.ite ((tame_alikeArguments tame_procRef).bind rest)
          (.ite ((tame_alikeArguments tame_stmtRef).bind rest) (rest _)))
  refine tame_peek.bind fun kind => ?_
  split
  · split <;> first | exact effect _ | exact alike _
  · exact .throw (by simp)
  · exact .throw (by simp)
  · exact .pure

section Expressions

variable {fuel : Nat} {isSign : TokenKind → Bool} {operand inner inner' : Parser Tree} {t : Tree}

/-- A turn of a chain, given how the others are made. -/
def chainTurn (isSign : TokenKind → Bool) (operand : Parser Tree) (again : Tree → Parser Tree)
    (left : Tree) : Parser Tree := do
  if (← peek).any isSign then
    shift
    let sign ← takenLeaf plainText
    let right ← operand
    again (sign.withChildren [left, right])
  else
    return left

theorem goes_chainTurn {again again' : Tree → Parser Tree}
    (goesOn : ∀ s', s'.left < s.left → Leaves enough scope s' operand s'.left)
    (goes : ∀ t s', s'.left < s.left → Goes enough scope s' (again t) (again' t) s'.left)
    : Goes enough scope s (chainTurn isSign operand again t) (chainTurn isSign operand again' t)
        s.left := by
  refine .peek ?_
  split
  · next found =>
    have present : s.next.isSome := by
      cases next : s.next with
      | none => simp [next] at found
      | some => rfl
    refine goes_shift (fun s₁ fewer₁ => ?_) present
    refine (tame_takenLeaf.leaves le_rfl).bind fun _ s₂ low₂ => ?_
    refine (goesOn s₂ (by omega)).bind fun _ s₃ low₃ => ?_
    exact (goes _ s₃ (by omega)).mono (by omega) id
  · exact ⟨rfl, le_rfl⟩

theorem leaves_chain (goesOn : ∀ s', s'.left ≤ n → Leaves enough scope s' operand s'.left)
    (low : s.left ≤ n) (suffices_ : enough → s.left < fuel)
    : Leaves enough scope s (chain isSign operand fuel t) s.left := by
  induction fuel generalizing s t with
  | zero => exact ⟨rfl, fun given => absurd (suffices_ given) (by omega)⟩
  | succ fuel ih =>
    have again (t : Tree) (s' : ParserState) (fewer : s'.left < s.left)
        : Leaves enough scope s' (chain isSign operand fuel t) s'.left :=
      ih (fewer.le.trans low) fun given => fewer.trans_le (Nat.le_of_lt_succ (suffices_ given))
    exact goes_chainTurn (fun s' fewer => goesOn s' (fewer.le.trans low)) again

/-- Inside parentheses an expression is read after the opening one has been taken. -/
theorem goes_factorWith (goes : ∀ s', s'.left < s.left → Goes enough scope s' inner inner' s'.left)
    : Goes enough scope s (factorWith inner) (factorWith inner') s.left := by
  refine .peek ?_
  split
  · next found =>
    refine goes_shift (fun s₁ fewer => ?_) (isSome_of_kind found)
    refine (goes s₁ fewer).bind fun _ s₂ low₂ => ?_
    exact (tame_expectTitle.bind fun _ => .pure).leaves (low₂.trans fewer.le)
  · exact (tame_shift.bind fun _ => tame_takenLeaf).leaves le_rfl
  · exact (tame_shift.bind fun _ => tame_get.bind fun _ => .pure).leaves le_rfl
  · exact (tame_shift.bind fun _ => tame_get.bind fun _ => .pure).leaves le_rfl
  · exact ⟨rfl, le_rfl⟩

section Terms

variable (goesOn : ∀ s', s'.left < n → Leaves enough scope s' inner s'.left)
include goesOn

theorem leaves_factorWith (low : s.left ≤ n) : Leaves enough scope s (factorWith inner) s.left :=
  goes_factorWith fun s' fewer => goesOn s' (fewer.trans_le low)

theorem leaves_termWith (suffices_ : enough → n < fuel) (low : s.left ≤ n)
    : Leaves enough scope s (termWith fuel inner) s.left := by
  refine (leaves_factorWith goesOn low).bind fun _ s₁ low₁ => ?_
  exact (leaves_chain (fun _ => leaves_factorWith goesOn) (low₁.trans low)
    fun given => (low₁.trans low).trans_lt (suffices_ given)).mono low₁ id

end Terms

theorem leaves_expressionWithin
    : Leaves (s.left + 2 ≤ fuel) scope s (expressionWithin fuel) s.left := by
  induction fuel generalizing s with
  | zero => exact ⟨rfl, fun given => absurd given (by omega)⟩
  | succ fuel ih =>
    have inner (s' : ParserState) (lower : s'.left < s.left)
        : Leaves (s.left + 2 ≤ fuel + 1) scope s' (expressionWithin fuel) s'.left :=
      ih.mono le_rfl (by omega)
    refine (leaves_termWith inner (by omega) le_rfl).bind fun _ s₁ low₁ => ?_
    exact (leaves_chain (fun _ => leaves_termWith inner (by omega)) low₁ (by omega)).mono low₁ id

theorem tame_expression : Tame expression :=
  ⟨fun {_ _ s _} low => .get (leaves_expressionWithin.mono low fun _ => s.left_budget)⟩

end Expressions

theorem tame_rightHandSide : Tame rightHandSide := by
  have inQuotes : Tame (do
      expect .quote
      let e ← expression
      expect .quote
      return e) :=
    tame_expectTitle.bind fun _ => tame_expression.bind fun _ => tame_expectTitle.bind fun _ => .pure
  refine tame_peek.bind fun kind => ?_
  split
  · refine tame_shift.bind fun _ => tame_takenLeaf.bind fun _ => tame_peek.bind fun kind => ?_
    split
    · exact tame_expression.bind fun _ => tame_expectTitle.bind fun _ => .pure
    · exact inQuotes.bind fun _ => tame_expectTitle.bind fun _ => .pure
    · exact .pure
  · exact tame_expression
  · exact inQuotes

theorem tame_patternCond : Tame patternCond := by
  have node {title type synonym : String} {arguments : List Tree}
      : Tame (patternNode title type synonym arguments) :=
    .unless tame_noAnswer .pure
  have everything {failure : Failure} (other : failure ≠ .exhausted) : Tame (everything failure) :=
    tame_peek.bind fun _ => .ite (tame_shift.bind fun _ => tame_takenLeaf) (.throw other)
  have assign : Tame assignPattern :=
    tame_get.bind fun _ => tame_expectTitle.bind fun _ => tame_varRef.bind fun _ =>
      tame_expectTitle.bind fun _ => tame_rightHandSide.bind fun _ => tame_expectTitle.bind fun _ => node
  have branch : Tame branchPattern :=
    tame_get.bind fun _ => tame_expectTitle.bind fun _ => tame_varRef.bind fun _ =>
      tame_expectTitle.bind fun _ => (everything (by simp)).bind fun _ => tame_expectTitle.bind fun _ =>
        (everything (by simp)).bind fun _ => tame_expectTitle.bind fun _ => node
  have loop : Tame loopPattern :=
    tame_get.bind fun _ => tame_expectTitle.bind fun _ => tame_varRef.bind fun _ =>
      tame_expectTitle.bind fun _ => (everything (by simp)).bind fun _ => tame_expectTitle.bind fun _ => node
  exact tame_peek.bind fun _ => .ite
    (tame_typed.bind fun _ => .ite assign (.ite branch (.ite loop (.throw (by simp)))))
    (.throw (by simp))

theorem tame_attrCond : Tame attrCond := by
  have attr {text : Option Token → String} : Tame (do
      expect .attr
      takenLeaf text) :=
    tame_expectTitle.bind fun _ => tame_takenLeaf
  have value : Tame attributeValue :=
    tame_typed.bind fun _ => tame_get.bind fun _ =>
      .unless (.throw (by simp)) (attr.bind fun _ => .pure)
  have compared : Tame comparand := by
    refine tame_expectTitle.bind fun _ => tame_peek.bind fun _ => .ite ?_ ?_
    · exact tame_shift.bind fun _ => tame_get.bind fun _ => tame_shift.bind fun _ =>
        tame_expectTitle.bind fun _ => .pure
    · refine tame_get.bind fun _ => tame_peek.bind fun kind => ?_
      split
      · exact value
      · exact tame_shift.bind fun _ => .pure
      · exact tame_lineNumber.bind fun _ => .pure
      · exact .pure
  have check {type : String} {t : Tree} : Tame (checkComparand type t) := by
    unfold checkComparand
    split
    · exact .ite (tame_read.bind fun _ => .ite tame_noAnswer .pure)
        (.ite (tame_read.bind fun _ => .ite tame_noAnswer .pure) .pure)
    · exact tame_numeral.bind fun _ => tame_read.bind fun _ => .ite tame_noAnswer .pure
    · exact .pure
  refine tame_typed.bind fun _ => tame_get.bind fun _ => .unless (.throw (by simp)) (.ite ?_ ?_)
  · exact compared.bind fun _ => check.bind fun _ => .pure
  · exact (attr.bind fun _ => .pure).bind fun _ => compared.bind fun _ => check.bind fun _ => .pure

/-- Does something else unless less is left than in a state. -/
def paced (s : ParserState) (otherwise m : Parser α) : Parser α := do
  if (← get).left < s.left then m else otherwise

/-- In a state, a loop goes on only with less left: it makes no difference what would be done
otherwise. -/
def Paced (scope : Scope) (s : ParserState) (fuel : Nat) (loop : Nat → β → Parser α)
    (turn : (β → Parser α) → β → Parser α) : Prop :=
  ∀ (otherwise : β → Parser α) b,
    turn (fun b => paced s (otherwise b) (loop fuel b)) b scope s = loop (fuel + 1) b scope s

theorem goes_paced {s' : ParserState} {otherwise : Parser α} (fewer : s'.left < s.left)
    (leaves : Leaves enough scope s' m n)
    : Goes False scope s' m (paced s otherwise m) n := by
  refine ⟨?_, (leaves.mono le_rfl False.elim).2⟩
  change (if s'.left < s.left then m else otherwise) scope s' = _
  rw [if_pos fewer]

/-- A loop by turns, each of which takes a token before the next one. -/
structure Loop (loop : Nat → β → Parser α) (turn : (β → Parser α) → β → Parser α) : Prop where
  stop : ∀ b, loop 0 b = throw .exhausted
  next : ∀ fuel b, loop (fuel + 1) b = turn (loop fuel) b
  goes : ∀ {enough scope s b} {again again' : β → Parser α},
    (∀ b s', s'.left < s.left → Goes enough scope s' (again b) (again' b) s'.left) →
    Goes enough scope s (turn again b) (turn again' b) s.left

namespace Loop

variable {loop : Nat → β → Parser α} {turn : (β → Parser α) → β → Parser α} (isLoop : Loop loop turn)
include isLoop

theorem leaves {fuel : Nat} {b : β} : Leaves (s.left < fuel) scope s (loop fuel b) s.left := by
  induction fuel generalizing s b with
  | zero =>
    rw [isLoop.stop]
    exact ⟨rfl, fun given => absurd given (by omega)⟩
  | succ fuel ih =>
    rw [isLoop.next]
    exact isLoop.goes fun b s' fewer => ih.mono le_rfl fun given =>
      fewer.trans_le (Nat.le_of_lt_succ given)

theorem tame (b : β) : Tame (do loop (← get).budget b) :=
  ⟨fun {_ _ s _} low => .get (isLoop.leaves.mono low fun _ => by have := s.left_budget; omega)⟩

theorem paced (fuel : Nat) : Paced scope s fuel loop turn := by
  intro otherwise b
  rw [isLoop.next]
  exact (isLoop.goes fun b s' fewer => goes_paced fewer isLoop.leaves).1

end Loop

section Loops

variable {condition : Parser Tree} {type : String}

def joinedTurn (condition : Parser Tree) (again : Unit → Parser (List Tree)) (_ : Unit)
    : Parser (List Tree) := do
  let first ← condition
  if (← peek) = some .andWord then
    shift
    let rest ← again ()
    return first :: rest
  else
    return [first]

theorem loop_joined (tame : Tame condition)
    : Loop (fun fuel _ => joined condition fuel) (joinedTurn condition) where
  stop _ := rfl
  next _ _ := rfl
  goes {enough scope s b again again'} goes := by
    refine (tame.leaves le_rfl).bind fun _ s₁ low₁ => .peek ?_
    split
    · next found =>
      refine goes_shift (fun s₂ fewer => ?_) (isSome_of_kind found)
      exact (goes () s₂ (by omega)).bind fun _ s₃ low₃ => ⟨rfl, low₃.trans (by omega)⟩
    · exact ⟨rfl, low₁⟩

def declaredTurn (type : String) (again : Unit → Parser Unit) (_ : Unit) : Parser Unit := do
  let s ← get
  if titleOf s.next = TokenKind.semicolon.title then
    shift
  else
    let name := plainText s.next
    if s.declarations.has name then throw (.redeclared name)
    set { s with declarations := s.declarations.put name (some type) }
    synonym
    if (← peek) = some .comma then shift
    again ()

theorem loop_declared : Loop (fun fuel _ => declared type fuel) (declaredTurn type) where
  stop _ := rfl
  next _ _ := rfl
  goes {enough scope s b again again'} goes := by
    have later {s' : ParserState} (fewer : s'.left < s.left)
        : Goes enough scope s' (again ()) (again' ()) s.left :=
      (goes () s' fewer).mono fewer.le id
    refine .get ?_
    split
    · exact tame_shift.leaves le_rfl
    dsimp only
    split
    · exact ⟨rfl, fun _ => by simp⟩
    change Goes enough scope { s with declarations := _ } (synonym >>= _) (synonym >>= _) _
    refine goes_expect fun s₁ fewer => .peek ?_
    split
    · exact (tame_shift.leaves le_rfl).bind fun _ s₂ low₂ => later (low₂.trans_lt fewer)
    · exact later fewer

def declarationsTurn (again : Unit → Parser Unit) (_ : Unit) : Parser Unit := do
  match ← peek with
  | some .select => pure ()
  | some .declaration =>
    shift
    declaration
    again ()
  | _ => throw .stuck

theorem loop_declarations : Loop (fun fuel _ => declarations fuel) declarationsTurn where
  stop _ := rfl
  next _ _ := rfl
  goes {enough scope s b again again'} goes := by
    have declaration : Tame declaration :=
      ⟨fun {_ _ s _} low => .get ((loop_declared.leaves (b := ())).mono low
        fun _ => by have := s.left_budget; omega)⟩
    refine .peek ?_
    split
    · exact ⟨rfl, le_rfl⟩
    · next found =>
      refine goes_shift (fun s₁ fewer => ?_) (isSome_of_kind found)
      refine (declaration.leaves le_rfl).bind fun _ s₂ low₂ => ?_
      exact (goes () s₂ (by omega)).mono (by omega) id
    · exact ⟨rfl, fun _ => by simp⟩

def clausesTurn (again : Clauses → Parser Clauses) (found : Clauses) : Parser Clauses := do
  match ← peek with
  | some .suchThat =>
    shift
    let more ← suchThatClause
    again { found with relations := found.relations ++ more }
  | some .withWord =>
    shift
    let more ← withClause
    again { found with withs := found.withs ++ more }
  | some .pattern =>
    shift
    let more ← patternClause
    again { found with patterns := found.patterns ++ more }
  | _ => return found

theorem loop_clauses : Loop clauses clausesTurn where
  stop _ := rfl
  next _ _ := rfl
  goes {enough scope s b again again'} goes := by
    have clause {kind : TokenKind} {m : Parser (List Tree)} {more : List Tree → Clauses} (tame : Tame m)
        (found : s.next.map (·.kind) = some kind)
        : Goes enough scope s (do shift; let ts ← m; again (more ts))
            (do shift; let ts ← m; again' (more ts)) s.left := by
      refine goes_shift (fun s₁ fewer => ?_) (isSome_of_kind found)
      refine (tame.leaves le_rfl).bind fun _ s₂ low₂ => ?_
      exact (goes _ s₂ (by omega)).mono (by omega) id
    refine .peek ?_
    split
    · next found => exact clause ((loop_joined tame_relRef).tame ()) found
    · next found => exact clause ((loop_joined tame_attrCond).tame ()) found
    · next found => exact clause ((loop_joined tame_patternCond).tame ()) found
    · exact ⟨rfl, le_rfl⟩

theorem tame_selectClause : Tame selectClause := by
  have added {parts : List Tree} : Tame (addParts parts) := ⟨fun low => ⟨rfl, low⟩⟩
  have selection : Tame selection := by
    have chosen : Tame (modify fun s => { s with selected := titleOf s.next } : Parser PUnit) :=
      ⟨fun low => ⟨rfl, low⟩⟩
    refine chosen.bind fun _ => tame_peek.bind fun kind => ?_
    split
    · exact .throw (by simp)
    · exact tame_shift.bind fun _ => .pure
    · exact tame_typed.bind fun _ => .pure
  exact (loop_declarations.tame ()).bind fun _ => tame_expectTitle.bind fun _ => selection.bind fun _ =>
    added.bind fun _ => (loop_clauses.tame {}).bind fun _ => added

end Loops

/-- In a state, every loop and every nested expression goes on only with less left. -/
structure Progresses (scope : Scope) (s : ParserState) (fuel : Nat) : Prop where
  names : ∀ type, Paced scope s fuel (fun fuel _ => declared type fuel) (declaredTurn type)
  declarations : Paced scope s fuel (fun fuel _ => declarations fuel) declarationsTurn
  clauses : Paced scope s fuel clauses clausesTurn
  conditions : ∀ condition ∈ [relRef, attrCond, patternCond],
    Paced scope s fuel (fun fuel _ => joined condition fuel) (joinedTurn condition)
  products : ∀ depth, Paced scope s fuel (chain isProductSign (factorWith (expressionWithin depth)))
    (chainTurn isProductSign (factorWith (expressionWithin depth)))
  sums : ∀ depth, Paced scope s fuel (chain isSumSign (termWith depth (expressionWithin depth)))
    (chainTurn isSumSign (termWith depth (expressionWithin depth)))
  parentheses : ∀ otherwise, factorWith (paced s otherwise (expressionWithin fuel)) scope s
    = factorWith (expressionWithin fuel) scope s

theorem progresses_at (s : ParserState) (fuel : Nat) : Progresses scope s fuel := by
  have inner (depth n : Nat) (s' : ParserState) (_ : s'.left < n)
      : Leaves False scope s' (expressionWithin depth) s'.left :=
    leaves_expressionWithin.mono le_rfl False.elim
  have chained {isSign : TokenKind → Bool} {operand : Parser Tree}
      (operands : ∀ s', Leaves False scope s' operand s'.left)
      : Paced scope s fuel (chain isSign operand) (chainTurn isSign operand) :=
    fun otherwise t => (goes_chainTurn (fun s' _ => operands s') fun t s' fewer =>
      goes_paced fewer (leaves_chain (fun s' _ => operands s') le_rfl False.elim)).1
  refine ⟨fun type => loop_declared.paced fuel, loop_declarations.paced fuel, loop_clauses.paced fuel,
    fun condition listed => ?_,
    fun depth => chained fun s' => leaves_factorWith (inner depth s'.left) le_rfl,
    fun depth => chained fun s' => leaves_termWith (inner depth s'.left) False.elim le_rfl,
    fun otherwise => (goes_factorWith fun s' fewer => goes_paced fewer leaves_expressionWithin).1⟩
  simp only [List.mem_cons, List.not_mem_nil, or_false] at listed
  rcases listed with rfl | rfl | rfl
  · exact (loop_joined tame_relRef).paced fuel
  · exact (loop_joined tame_attrCond).paced fuel
  · exact (loop_joined tame_patternCond).paced fuel

end Parser

/-- Reading a query makes progress, whatever the text. The budget is never used up, and wherever the
parser is, each turn of a loop and each nested expression comes after a token that has been taken, which
is not empty.
-/
theorem Reading.progresses (scope : Scope) (text : String)
    : Reading.ofText scope text ≠ .error .exhausted
      ∧ (∀ s fuel, Parser.Progresses scope s fuel)
      ∧ ∀ admitted cs t rest, Token.scan admitted cs = some (t, rest) → t.text.toList ≠ [] := by
  refine ⟨fun failed => ?_, Parser.progresses_at, fun _ _ _ _ => Token.text_ne_nil⟩
  have leaves : Parser.Leaves True scope ((ParserState.start []).reopen text).advance
    Parser.selectClause _ := Parser.tame_selectClause.leaves le_rfl
  unfold Reading.ofText at failed
  split at failed
  · cases failed
  · next failure s' ended =>
    cases failed
    have same : Parser.selectClause scope ((ParserState.start []).reopen text).advance
        = .error .exhausted s' := ended
    simp [Parser.Goes, same] at leaves

end ProgramQuery.Query

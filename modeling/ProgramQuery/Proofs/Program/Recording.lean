import ProgramQuery.Proofs.Program.Ledger
import ProgramQuery.Proofs.Program.Recorder

/-! The parser with a table of effects that it writes while it reads. A write to a row that is not there
would end it with a failure of its own. It never does: on every text it does what the parser without a
table does.
-/

namespace ProgramQuery.Program

open Text

namespace Recorder

variable (ledger : Ledger) (owner : String)

/-- Nothing looks at the table between the target and the end of an assignment. -/
def assignment : Recorder (Grid Int) (Nat × Stmt) := do
  let line ← lineNow
  let target ← lift (Parser.expect .name)
  lift (discard (Parser.expect .assign))
  let value ← lift Parser.expression
  write fun g => some (Ledger.note owner line (ledger.ofAssign target value) (ledger.start line g))
  lift (discard (Parser.expect .semicolon))
  return (line, .assign target value)

/-- A call writes nothing: what the procedure does is added when the whole text is read. -/
def call : Recorder (Grid Int) (Nat × Stmt) := do
  let line ← lineNow
  lift (discard (Parser.expect .callWord))
  let callee ← lift (Parser.expect .name)
  lift (discard (Parser.expect .semicolon))
  return (line, .call callee)

/-- What the statements of a loop do is gathered for the loop as soon as they are read. -/
def loopWith (statements : Recorder (Grid Int) (List (Nat × Stmt)))
    : Recorder (Grid Int) (Nat × Stmt) := do
  let line ← lineNow
  lift (discard (Parser.expect .whileWord))
  let condition ← lift (Parser.expect .name)
  write fun g => some (Ledger.note owner line (ledger.ofCondition condition) g)
  lift (discard (Parser.expect .openBracket))
  let body ← statements
  if !Stmt.listEnds (body.map (·.2)) then lift (throw .emptyList)
  write fun g => Ledger.gather owner line body (ledger.start line g)
  lift (discard (Parser.expect .closeBracket))
  return (line, .loop condition (body.map (·.2)))

/-- Each of the two lists is gathered where it ends, and only the first one starts the row. -/
def branchWith (statements : Recorder (Grid Int) (List (Nat × Stmt)))
    : Recorder (Grid Int) (Nat × Stmt) := do
  let line ← lineNow
  lift (discard (Parser.expect .ifWord))
  let condition ← lift (Parser.expect .name)
  write fun g => some (Ledger.note owner line (ledger.ofCondition condition) g)
  lift (discard (Parser.expect .thenWord))
  lift (discard (Parser.expect .openBracket))
  let thenBody ← statements
  write fun g => Ledger.gather owner line thenBody (ledger.start line g)
  lift (discard (Parser.expect .closeBracket))
  lift (discard (Parser.expect .elseWord))
  lift (discard (Parser.expect .openBracket))
  let elseBody ← statements
  write fun g => Ledger.gather owner line elseBody g
  lift (discard (Parser.expect .closeBracket))
  return (line, .branch condition (thenBody.map (·.2)) (elseBody.map (·.2)))

def statementWith (statements : Recorder (Grid Int) (List (Nat × Stmt)))
    : Recorder (Grid Int) (Nat × Stmt) := do
  lift (modify fun s => { s with line := s.line + 1 })
  match ← lift Parser.peek with
  | some .whileWord => loopWith ledger owner statements
  | some .callWord => call
  | some .ifWord => branchWith ledger owner statements
  | _ => assignment ledger owner

def statementsFrom (statement : Recorder (Grid Int) (Nat × Stmt))
    : Nat → Option Stmt → Recorder (Grid Int) (List (Nat × Stmt))
  | 0, _ => lift (throw .exhausted)
  | fuel + 1, before => do
      if (← lift Parser.peek) = some .closeBracket then
        return []
      else
        let s ← statement
        if before.any (!·.ends) then lift (throw .emptyList)
        let rest ← statementsFrom statement fuel (some s.2)
        return s :: rest

def statementsWithin : Nat → Recorder (Grid Int) (List (Nat × Stmt))
  | 0 => lift (throw .exhausted)
  | fuel + 1 => statementsFrom (statementWith ledger owner (statementsWithin fuel)) fuel none

def statements : Recorder (Grid Int) (List (Nat × Stmt)) := fun state =>
  statementsWithin ledger owner state.1.budget state

def procedure : Recorder (Grid Int) Procedure := do
  lift (discard (Parser.expect .procedureWord))
  let name ← lift (Parser.expect .name)
  lift (discard (Parser.expect .openBracket))
  let body ← statements ledger name
  lift (discard (Parser.expect .closeBracket))
  return ⟨name, body.map (·.2)⟩

def procedures : Nat → Recorder (Grid Int) (List Procedure)
  | 0 => lift (throw .exhausted)
  | fuel + 1 => do
      if (← lift Parser.peek) = some .procedureWord then
        let first ← procedure ledger
        let rest ← procedures fuel
        return first :: rest
      else
        return []

def program : Recorder (Grid Int) Program := do
  lift (modify ParserState.advance)
  let s ← lift get
  return ⟨← procedures ledger s.budget⟩

variable {ledger owner} {s : ParserState} {g : Grid Int} {first later : Nat}
  {entries : List (Nat × Stmt)}

/-- The rows of the statements from some number on are empty, as they are before these are read. -/
def Unwritten (g : Grid Int) (first : Nat) : Prop :=
  ∀ n, first ≤ n → g.columnsOf (showInt n) = []

theorem Unwritten.of_same {g' : Grid Int} (unwritten : Unwritten g first)
    (ahead : first ≤ later)
    (same : ∀ n, later ≤ n → ∀ x, x ∈ g'.columnsOf (showInt n) ↔ x ∈ g.columnsOf (showInt n))
    : Unwritten g' later := by
  intro n from_
  rw [List.eq_nil_iff_forall_not_mem]
  intro x member
  rw [same n from_, unwritten n (ahead.trans from_)] at member
  cases member

/-- Reading statements writes no row of a later one. -/
theorem unwritten_of_written (apart : ∀ n : Nat, owner ≠ showInt n) {g' : Grid Int}
    (written : ledger.Written owner entries g g')
    (unwritten : Unwritten g first) (ahead : first ≤ later)
    (before : ∀ entry ∈ entries, entry.1 < later)
    : Unwritten g' later := by
  refine unwritten.of_same ahead fun n from_ x => ?_
  refine written.others _ (apart n).symm (fun entry member same => ?_) x
  have := before entry member
  have := showInt_injective same
  omega

/-- Nor does reading a part of a loop or branch. -/
theorem unwritten_of_partly (apart : ∀ n : Nat, owner ≠ showInt n) {g' : Grid Int} {line : Nat}
    {condition : String} {gathered : List Stmt}
    (partly : ledger.Partly owner line condition gathered entries g g') (unwritten : Unwritten g line)
    (ahead : line < later) (before : ∀ entry ∈ entries, entry.1 < later)
    : Unwritten g' later := by
  refine unwritten.of_same ahead.le fun n from_ x => ?_
  refine partly.others _ (apart n).symm (fun same => ?_) (fun entry member same => ?_) x
  · have := showInt_injective same
    omega
  · have := before entry member
    have := showInt_injective same
    omega

/-- What holds when a statement has been read. It comes back with the number that it was read under, the
count of lines has gone on by its size, and the table has changed by what the statement and all inside it
do, for themselves and for the procedure around them.
-/
def Recorded (ledger : Ledger) (owner : String) (line : Nat) (g : Grid Int) (a : Stmt)
    (s' : ParserState) (b : Nat × Stmt) (g' : Grid Int)
    : Prop :=
  b = (line, a) ∧ s'.line + 1 = line + a.size ∧ ledger.Written owner (a.listing line) g g'

/-- What holds when a list of statements has been read, which is the invariant that the descent carries
through loops and branches.
-/
def RecordedList (ledger : Ledger) (owner : String) (first : Nat) (g : Grid Int) (body : List Stmt)
    (s' : ParserState) (b : List (Nat × Stmt)) (g' : Grid Int)
    : Prop :=
  b = Stmt.members first body ∧ s'.line + 1 = first + Stmt.sizes body
    ∧ ledger.Written owner (Stmt.listings first body) g g'

section Statements

variable (sound : ledger.Sound) (apart : ∀ n : Nat, owner ≠ showInt n)

include apart in
theorem tracks_assignment (unwritten : Unwritten g s.line)
    : Tracks Parser.assignment (assignment ledger owner) s g (Recorded ledger owner s.line g) := by
  refine .lineNow ?_
  refine (Tracks.expect .name).bind ?_
  rintro target s₁ _ _ ⟨rfl, rfl, line₁⟩
  refine (Tracks.word .assign).bind ?_
  rintro _ s₂ _ _ ⟨rfl, line₂⟩
  refine Tracks.expression.bind ?_
  rintro value s₃ _ _ ⟨rfl, rfl, line₃⟩
  refine .write rfl ?_
  refine (Tracks.word .semicolon).bind ?_
  rintro _ s₄ _ _ ⟨rfl, line₄⟩
  refine .pure ⟨rfl, ?_, Ledger.Written.assign apart (unwritten _ le_rfl) _ _⟩
  rw [line₄, line₃, line₂, line₁]
  rfl

theorem tracks_call (unwritten : Unwritten g s.line)
    : Tracks Parser.call call s g (Recorded ledger owner s.line g) := by
  refine .lineNow ?_
  refine (Tracks.word .callWord).bind ?_
  rintro _ s₁ _ _ ⟨rfl, line₁⟩
  refine (Tracks.expect .name).bind ?_
  rintro callee s₂ _ _ ⟨rfl, rfl, line₂⟩
  refine (Tracks.word .semicolon).bind ?_
  rintro _ s₃ _ _ ⟨rfl, line₃⟩
  refine .pure ⟨rfl, ?_, Ledger.Written.call (unwritten _ le_rfl) _⟩
  rw [line₃, line₂, line₁]
  rfl

section Lists

variable {plain : Parser (List Stmt)} {lists : Recorder (Grid Int) (List (Nat × Stmt))}
  (reads : ∀ (s : ParserState) (g : Grid Int), Unwritten g (s.line + 1) →
    Tracks plain lists s g (RecordedList ledger owner (s.line + 1) g))
include sound apart reads

theorem tracks_loopWith (unwritten : Unwritten g s.line)
    : Tracks (Parser.loopWith plain) (loopWith ledger owner lists) s g
        (Recorded ledger owner s.line g) := by
  refine .lineNow ?_
  refine (Tracks.word .whileWord).bind ?_
  rintro _ s₁ _ _ ⟨rfl, line₁⟩
  refine (Tracks.expect .name).bind ?_
  rintro condition s₂ _ _ ⟨rfl, rfl, line₂⟩
  have noted : ledger.Partly owner s.line condition [] [] _ _ :=
    .noted apart (unwritten s.line le_rfl)
  refine .write rfl ?_
  refine (Tracks.word .openBracket).bind ?_
  rintro _ s₃ _ _ ⟨rfl, line₃⟩
  have line : s₃.line = s.line := by rw [line₃, line₂, line₁]
  refine (reads s₃ _ (unwritten_of_partly apart noted unwritten (by omega) (by simp))).bind ?_
  rintro body s₄ _ g₄ ⟨rfl, line₄, written⟩
  rw [line] at written line₄ ⊢
  rw [Stmt.map_members]
  dsimp only
  split
  · exact .throw_bind _ _ _
  · have inside := noted.write apart written (fun entry member => (Stmt.span_of_mem member).1) (by simp)
    obtain ⟨started, there⟩ := inside.start sound
    obtain ⟨g₅, taken, -, gathered⟩ := started.gather apart there
      (fun entry member => List.mem_append_right _ member) (Nat.lt_succ_self _)
    refine .write taken ?_
    refine (Tracks.word .closeBracket).bind ?_
    rintro _ s₅ _ _ ⟨rfl, line₅⟩
    refine .pure ⟨rfl, ?_, gathered.finish rfl rfl⟩
    rw [line₅, line₄, Stmt.size]
    omega

theorem tracks_branchWith (unwritten : Unwritten g s.line)
    : Tracks (Parser.branchWith plain) (branchWith ledger owner lists) s g
        (Recorded ledger owner s.line g) := by
  refine .lineNow ?_
  refine (Tracks.word .ifWord).bind ?_
  rintro _ s₁ _ _ ⟨rfl, line₁⟩
  refine (Tracks.expect .name).bind ?_
  rintro condition s₂ _ _ ⟨rfl, rfl, line₂⟩
  have noted : ledger.Partly owner s.line condition [] [] _ _ :=
    .noted apart (unwritten s.line le_rfl)
  refine .write rfl ?_
  refine (Tracks.word .thenWord).bind ?_
  rintro _ s₃ _ _ ⟨rfl, line₃⟩
  refine (Tracks.word .openBracket).bind ?_
  rintro _ s₄ _ _ ⟨rfl, line₄⟩
  have line : s₄.line = s.line := by rw [line₄, line₃, line₂, line₁]
  refine (reads s₄ _ (unwritten_of_partly apart noted unwritten (by omega) (by simp))).bind ?_
  rintro thenBody s₅ _ g₅ ⟨rfl, line₅, thenWritten⟩
  rw [line] at thenWritten line₅ ⊢
  have inThen := noted.write apart thenWritten (fun entry member => (Stmt.span_of_mem member).1)
    (by simp)
  obtain ⟨started, there⟩ := inThen.start sound
  obtain ⟨g₆, taken, kept, thenGathered⟩ := started.gather apart there
    (fun entry member => List.mem_append_right _ member) (Nat.lt_succ_self _)
  refine .write taken ?_
  refine (Tracks.word .closeBracket).bind ?_
  rintro _ s₆ _ _ ⟨rfl, line₆⟩
  refine (Tracks.word .elseWord).bind ?_
  rintro _ s₇ _ _ ⟨rfl, line₇⟩
  refine (Tracks.word .openBracket).bind ?_
  rintro _ s₈ _ _ ⟨rfl, line₈⟩
  have line' : s₈.line + 1 = s.line + 1 + Stmt.sizes thenBody := by
    rw [line₈, line₇, line₆, line₅]
  have behind : Unwritten g₆ (s₈.line + 1) := by
    refine unwritten_of_partly apart thenGathered unwritten (by omega) fun entry member => ?_
    rw [line']
    exact (Stmt.span_of_mem (by simpa using member)).2
  refine (reads s₈ _ behind).bind ?_
  rintro elseBody s₉ _ g₉ ⟨rfl, line₉, elseWritten⟩
  rw [line'] at elseWritten line₉ ⊢
  have inElse := thenGathered.write apart elseWritten
    (fun entry member => by have := (Stmt.span_of_mem member).1; omega)
    (fun entry member entry' member' => by
      have := (Stmt.span_of_mem (by simpa using member)).2
      have := (Stmt.span_of_mem member').1
      omega)
  obtain ⟨g₁₀, taken', -, elseGathered⟩ := inElse.gather apart
    (elseWritten.keeps (kept there))
    (fun entry member => List.mem_append_right _ member) (by omega)
  refine .write taken' ?_
  refine (Tracks.word .closeBracket).bind ?_
  rintro _ s₁₀ _ _ ⟨rfl, line₁₀⟩
  rw [Stmt.map_members, Stmt.map_members]
  refine .pure ⟨rfl, ?_, elseGathered.finish ?_ rfl⟩
  · rw [line₁₀, line₉, Stmt.size]
    omega
  · simp [Stmt.listing]

theorem tracks_statementWith (unwritten : Unwritten g (s.line + 1))
    : Tracks (Parser.statementWith plain) (statementWith ledger owner lists) s g
        (Recorded ledger owner (s.line + 1) g) := by
  let counted : ParserState := { s with line := s.line + 1 }
  have ahead : Unwritten g counted.line := unwritten
  have chosen : Tracks
      (do
        match ← Parser.peek with
        | some .whileWord => Parser.loopWith plain
        | some .callWord => Parser.call
        | some .ifWord => Parser.branchWith plain
        | _ => Parser.assignment)
      (do
        match ← Recorder.lift Parser.peek with
        | some .whileWord => loopWith ledger owner lists
        | some .callWord => call
        | some .ifWord => branchWith ledger owner lists
        | _ => assignment ledger owner)
      counted g (Recorded ledger owner counted.line g) := by
    refine .peek ?_
    split
    · exact tracks_loopWith sound apart reads ahead
    · exact tracks_call ahead
    · exact tracks_branchWith sound apart reads ahead
    · exact tracks_assignment apart ahead
  exact chosen

end Lists

include apart in
theorem tracks_statementsFrom {plain : Parser Stmt} {statement : Recorder (Grid Int) (Nat × Stmt)}
    (reads : ∀ (s : ParserState) (g : Grid Int), Unwritten g (s.line + 1) →
      Tracks plain statement s g (Recorded ledger owner (s.line + 1) g))
    {fuel : Nat} {before : Option Stmt} (unwritten : Unwritten g (s.line + 1))
    : Tracks (Parser.statementsFrom plain fuel before) (statementsFrom statement fuel before) s g
        (RecordedList ledger owner (s.line + 1) g) := by
  induction fuel generalizing before s g with
  | zero => exact .throw _
  | succ fuel ih =>
    refine .peek ?_
    split
    · exact .pure ⟨rfl, rfl, Ledger.Written.nil ledger owner g⟩
    · refine (reads s g unwritten).bind ?_
      rintro first s₁ _ g₁ ⟨rfl, line₁, written⟩
      dsimp only
      split
      · exact .throw_bind _ _ _
      · have behind : Unwritten g₁ (s₁.line + 1) := by
          refine unwritten_of_written apart written unwritten (by omega) fun entry member => ?_
          have := (Stmt.span_of_mem_listing member).2
          omega
        refine (ih behind).bind ?_
        rintro rest s₂ _ g₂ ⟨rfl, line₂, written'⟩
        rw [line₁] at line₂ written' ⊢
        refine .pure ⟨rfl, ?_, written.append apart (fun entry member entry' member' => ?_) written'⟩
        · rw [line₂, Stmt.sizes, Nat.add_assoc]
        · have := (Stmt.span_of_mem_listing member).2
          have := (Stmt.span_of_mem member').1
          omega

include sound apart in
theorem tracks_statementsWithin (fuel : Nat) (unwritten : Unwritten g (s.line + 1))
    : Tracks (Parser.statementsWithin fuel) (statementsWithin ledger owner fuel) s g
        (RecordedList ledger owner (s.line + 1) g) := by
  induction fuel generalizing s g with
  | zero => exact .throw _
  | succ fuel ih =>
    refine tracks_statementsFrom apart (fun s g unwritten => ?_) unwritten
    exact tracks_statementWith sound apart (fun s g unwritten => ih unwritten) unwritten

include sound apart in
theorem tracks_statements (unwritten : Unwritten g (s.line + 1))
    : Tracks Parser.statements (statements ledger owner) s g
        (RecordedList ledger owner (s.line + 1) g) :=
  Tracks.of_budget (m := Parser.statementsWithin) (k := statementsWithin ledger owner)
    (tracks_statementsWithin sound apart s.budget unwritten)

end Statements

/-- What a procedure does is written under its own name, and the numbers go on by its statements. -/
theorem tracks_procedure (sound : ledger.Sound) (clear : ∀ t ∈ s.pending, t.wellSpelled = true)
    (unwritten : Unwritten g (s.line + 1))
    : Tracks Parser.procedure (procedure ledger) s g fun a s' b g' =>
        a = b ∧ isName a.name = true ∧ s'.line = s.line + Stmt.sizes a.body
          ∧ ledger.Written a.name (Stmt.listings (s.line + 1) a.body) g g' := by
  have word : Parser.Gives [] (discard (Parser.expect .procedureWord)) s _ :=
    Parser.gives_word .procedureWord
  refine ((Tracks.word .procedureWord).and_gives word).bind ?_
  rintro _ s₁ _ _ ⟨⟨rfl, line₁⟩, _, -, passes₁⟩
  have title : Parser.Gives [] (Parser.expect .name) s₁ _ := Parser.gives_expect .name
  refine ((Tracks.expect .name).and_gives title).bind ?_
  rintro name s₂ _ _ ⟨⟨rfl, rfl, line₂⟩, t, isNameToken, rfl, passes₂⟩
  have named : isName t.text = true := by
    refine isName_of_kind (clear t ?_) isNameToken
    rw [passes₁.pending, passes₂.pending]
    simp
  refine (Tracks.word .openBracket).bind ?_
  rintro _ s₃ _ _ ⟨rfl, line₃⟩
  have line : s₃.line = s.line := by rw [line₃, line₂, line₁]
  refine (tracks_statements sound (isName_ne_showInt named) (line ▸ unwritten)).bind ?_
  rintro body s₄ _ g₄ ⟨rfl, line₄, written⟩
  refine (Tracks.word .closeBracket).bind ?_
  rintro _ s₅ _ _ ⟨rfl, line₅⟩
  rw [Stmt.map_members]
  refine .pure ⟨rfl, named, ?_, line ▸ written⟩
  rw [line] at line₄
  dsimp only
  omega

/-- The table holds the effects of some procedures, the first statement of each given by its number,
and of no others. -/
structure Holds (ledger : Ledger) (entries : List (Nat × Procedure)) (g : Grid Int) : Prop where
  names : ∀ name, isName name = true → ∀ x, x ∈ g.columnsOf name
    ↔ ∃ entry ∈ entries, entry.2.name = name ∧ x ∈ ledger.effect.ofList entry.2.body
  rows : ∀ entry ∈ entries, ∀ inner ∈ Stmt.listings entry.1 entry.2.body, ∀ x,
    x ∈ g.columnsOf (showInt inner.1) ↔ x ∈ ledger.effect.ofList [inner.2]

/-- A further procedure is written behind the others. -/
theorem Holds.snoc {entries : List (Nat × Procedure)} {a : Procedure} {g' : Grid Int}
    (holds : Holds ledger entries g) (named : isName a.name = true)
    (before : ∀ entry ∈ entries, entry.1 + Stmt.sizes entry.2.body ≤ first)
    (written : ledger.Written a.name (Stmt.listings first a.body) g g')
    : Holds ledger (entries ++ [(first, a)]) g' where
  names := by
    intro name isName x
    by_cases same : name = a.name
    · subst same
      rw [written.around, holds.names _ isName,
        ← Ledger.mem_ofList_iff_listings ledger.effect first a.body]
      simp [or_and_right, exists_or]
    · rw [written.others name same fun entry _ => isName_ne_showInt isName entry.1,
        holds.names name isName]
      simp [or_and_right, exists_or, Ne.symm same]
  rows := by
    rw [List.forall_mem_append]
    refine ⟨fun entry member inner listed x => ?_, ?_⟩
    · rw [written.others _ (isName_ne_showInt named inner.1).symm, holds.rows entry member inner listed]
      intro other listed' same
      have := before entry member
      have := (Stmt.span_of_mem listed).2
      have := (Stmt.span_of_mem listed').1
      have := showInt_injective same
      omega
    · simpa using written.rows

theorem tracks_procedures (sound : ledger.Sound) (fuel : Nat) {entries : List (Nat × Procedure)}
    (clear : ∀ t ∈ s.pending, t.wellSpelled = true) (unwritten : Unwritten g (s.line + 1))
    (holds : Holds ledger entries g)
    (before : ∀ entry ∈ entries, entry.1 + Stmt.sizes entry.2.body ≤ s.line + 1)
    : Tracks (Parser.procedures fuel) (procedures ledger fuel) s g fun a _ b g' =>
        a = b ∧ Holds ledger (entries ++ Program.starts (s.line + 1) a) g' := by
  induction fuel generalizing entries s g with
  | zero => exact .throw _
  | succ fuel ih =>
    refine .peek ?_
    split
    · have gives : Parser.Gives s.pending Parser.procedure s _ :=
        Parser.gives_procedure (List.suffix_refl _)
      refine ((tracks_procedure sound clear unwritten).and_gives gives).bind ?_
      rintro first s₁ _ g₁ ⟨⟨rfl, named, line₁, written⟩, used, -, passes⟩
      have clear₁ : ∀ t ∈ s₁.pending, t.wellSpelled = true := fun t member =>
        clear t (passes.pending ▸ List.mem_append_right _ member)
      have behind : Unwritten g₁ (s₁.line + 1) := by
        refine unwritten_of_written (isName_ne_showInt named) written unwritten (by omega)
          fun entry member => ?_
        have := (Stmt.span_of_mem member).2
        omega
      have before₁ : ∀ entry ∈ entries ++ [(s.line + 1, first)],
          entry.1 + Stmt.sizes entry.2.body ≤ s₁.line + 1 := by
        rw [List.forall_mem_append]
        refine ⟨fun entry member => (before entry member).trans (by omega), ?_⟩
        simp only [List.mem_singleton, forall_eq]
        omega
      refine (ih clear₁ behind (holds.snoc named before written) before₁).bind ?_
      rintro rest s₂ _ g₂ ⟨rfl, holds'⟩
      refine .pure ⟨rfl, ?_⟩
      rw [line₁, Nat.add_right_comm] at holds'
      simpa [Program.starts] using holds'
    · exact .pure ⟨rfl, by simpa [Program.starts] using holds⟩

/-- On every text the parser with a table does what the parser without one does. If a program is read,
the table holds its effects. -/
theorem tracks_program (sound : ledger.Sound) (text : String)
    : Tracks Parser.program (program ledger) (.start text) .empty fun p _ b g =>
        p = b ∧ Holds ledger p.numbered g := by
  have clear : ∀ t ∈ (ParserState.start text).advance.pending, t.wellSpelled = true := by
    rw [ParserState.pending_advance]
    exact fun t => wellSpelled_of_mem_tokensIn
  have empty (row : String) : (Grid.empty : Grid Int).columnsOf row = [] := by
    rw [List.eq_nil_iff_forall_not_mem]
    exact fun x => Grid.not_mem_columnsOf_empty
  have holds : Holds ledger [] .empty := ⟨by simp [empty], by simp⟩
  have read := tracks_procedures sound (ParserState.start text).advance.budget clear
    (fun n _ => empty _) holds (by simp)
  refine (Tracks.modify ParserState.advance).bind ?_
  rintro _ _ _ _ ⟨rfl, rfl⟩
  refine Tracks.get.bind ?_
  rintro _ _ _ _ ⟨rfl, rfl, rfl, rfl⟩
  refine read.bind ?_
  rintro list stop _ g ⟨rfl, holds'⟩
  refine .pure ⟨rfl, ?_⟩
  have first : (ParserState.start text).advance.line = 0 := ParserState.line_advance _
  rwa [first, List.nil_append] at holds'

end Recorder

end ProgramQuery.Program

import ProgramQuery.KnowledgeBase
import ProgramQuery.Program.Outline
import ProgramQuery.Proofs.Program.Recorder

/-! The parser with the tables that it fills while it reads. What is written for each part of a text is a
log of what has been read, so in the end the tables hold the log of the whole program. On every text the
parser fails or goes on as the one without tables does.
-/

namespace ProgramQuery

open Text

namespace Tree

def number (t : Tree) : Nat :=
  (t.line?.getD 0).toNat

mutual

/-- The numbers of the statements from which control leaves a statement. A conditional needs both of its
branches for this. -/
def endings? : Tree → Option (List Nat)
  | .missing => none
  | .node label text line children =>
    if label = "IF" then branchEndings? children else some [(Tree.node label text line []).number]

/-- The condition of a conditional is passed over. -/
def branchEndings? : List Tree → Option (List Nat)
  | _ :: first :: second :: _ => do return (← first.listEndings?) ++ (← second.listEndings?)
  | _ => none

def listEndings? : Tree → Option (List Nat)
  | .missing => none
  | .node _ _ _ children => lastEndings? children

def lastEndings? : List Tree → Option (List Nat)
  | [] => none
  | [t] => t.endings?
  | _ :: t :: rest => lastEndings? (t :: rest)

end

mutual

/-- The greatest number among the leaves below a node, or its own if it is a leaf. -/
def lastNumber : Tree → Int
  | .missing => 0
  | .node _ _ line children => (greatest? children).getD line

def greatest? : List Tree → Option Int
  | [] => none
  | t :: rest => some (((greatest? rest).map (max t.lastNumber)).getD t.lastNumber)

end

end Tree

namespace Program

/-- What is written in some part of a program, in the order of writing. For Next and Follows these are
rows with a column each. For Parent a row without a column is one that is started anew.
-/
structure Log where
  next : List (Nat × Nat) := []
  follows : List (Nat × Nat) := []
  parent : List (Nat × Option Nat) := []
  statements : List StatementEntry := []
  procedures : List ProcedureEntry := []

namespace Log

instance : Append Log where
  append l l' :=
    { next := l.next ++ l'.next
      follows := l.follows ++ l'.follows
      parent := l.parent ++ l'.parent
      statements := l.statements ++ l'.statements
      procedures := l.procedures ++ l'.procedures }

variable (l l' : Log)

@[simp] theorem next_append : (l ++ l').next = l.next ++ l'.next := rfl

@[simp] theorem follows_append : (l ++ l').follows = l.follows ++ l'.follows := rfl

@[simp] theorem parent_append : (l ++ l').parent = l.parent ++ l'.parent := rfl

@[simp] theorem statements_append : (l ++ l').statements = l.statements ++ l'.statements := rfl

@[simp] theorem procedures_append : (l ++ l').procedures = l.procedures ++ l'.procedures := rfl

/-- Control comes from some statements to one. -/
def steps (befores : List Nat) (after : Nat) : Log :=
  { next := befores.map (after, ·) }

def adopted (line : Nat) (children : List Nat) : Log :=
  { parent := children.map (line, some ·) }

/-- A statement comes after another one in a list. -/
def joined (line : Nat) (endings : List Nat) (after : Nat) : Log :=
  { next := endings.map (after, ·), follows := [(line, after)] }

end Log

structure Tables where
  next : Grid Int
  follows : Grid Int
  parent : Grid Int
  statements : List StatementEntry
  procedures : List ProcedureEntry

namespace Tables

def empty : Tables :=
  ⟨.empty, .empty, .empty, [], []⟩

/-- Sets a whole row, whatever was in it. -/
def setRow (g : Grid Int) (row : String) (columns : Keyed Int) : Grid Int :=
  ⟨g.rows.put row columns⟩

def noteParent (g : Grid Int) (entry : Nat × Option Nat) : Grid Int :=
  match entry.2 with
  | none => setRow g (showInt entry.1) []
  | some child => g.put (showInt entry.1) (showInt child) 1

/-- Cells are added to a row of Next, but a row of Follows is replaced. -/
def enter (t : Tables) (l : Log) : Tables where
  next := l.next.foldl (fun g entry => g.put (showInt entry.1) (showInt entry.2) 1) t.next
  follows := l.follows.foldl (fun g entry => setRow g (showInt entry.1) [(showInt entry.2, 1)]) t.follows
  parent := l.parent.foldl noteParent t.parent
  statements := t.statements ++ l.statements
  procedures := t.procedures ++ l.procedures

theorem enter_append (t : Tables) (l l' : Log) : t.enter (l ++ l') = (t.enter l).enter l' := by
  simp [enter]

theorem enter_nothing (t : Tables) : t.enter {} = t := by
  cases t
  simp [enter]

/-- Statements are listed as they end, so in the end their table is sorted. -/
def sorted (t : Tables) : Tables :=
  { t with statements := t.statements.mergeSort fun e e' => decide (e.line ≤ e'.line) }

end Tables

namespace Writer

open Recorder

def note (l : Log) : Recorder Tables Unit :=
  write fun t => some (t.enter l)

def assignment : Recorder Tables Tree := do
  let line ← lineNow
  let target ← lift (Parser.expect .name)
  note { statements := [⟨line, "ASSIGN", target, line, line, none⟩] }
  lift (discard (Parser.expect .assign))
  let value ← lift Parser.expression
  lift (discard (Parser.expect .semicolon))
  return .node "ASSIGN" "" line [.node "NAME" target line [], value.toTree line]

def call : Recorder Tables Tree := do
  let line ← lineNow
  lift (discard (Parser.expect .callWord))
  let callee ← lift (Parser.expect .name)
  note { statements := [⟨line, "CALL", callee, line, line, none⟩] }
  lift (discard (Parser.expect .semicolon))
  return .node "CALL" callee line []

/-- Control goes back to the head of a loop from where its body ends. -/
def goBack (body : List Tree) (line : Nat) : Recorder Tables Unit :=
  match Tree.lastEndings? body with
  | none => lift (throw .emptyList)
  | some endings => note (.steps endings line)

def loopWith (statements : Recorder Tables (List Tree)) : Recorder Tables Tree := do
  let line ← lineNow
  lift (discard (Parser.expect .whileWord))
  let condition ← lift (Parser.expect .name)
  lift (discard (Parser.expect .openBracket))
  -- the step into the body is written before it is known that there is one
  let before ← lineNow
  note (.steps [line] (before + 1))
  let body ← statements
  let last ← lineNow
  note { statements := [⟨line, "WHILE", condition, line, last, none⟩] }
  goBack body line
  note ({ parent := [(line, none)] } ++ .adopted line (body.map (·.number)))
  lift (discard (Parser.expect .closeBracket))
  return .node "WHILE" "" line [.node "NAME" condition line [], Stmt.listTree "\x7b" body]

def branchWith (statements : Recorder Tables (List Tree)) : Recorder Tables Tree := do
  let line ← lineNow
  lift (discard (Parser.expect .ifWord))
  let condition ← lift (Parser.expect .name)
  lift (discard (Parser.expect .thenWord))
  lift (discard (Parser.expect .openBracket))
  let before ← lineNow
  note (.steps [line] (before + 1))
  let thenBody ← statements
  -- the row is started once, and the other list is added to it
  note ({ parent := [(line, none)] } ++ .adopted line (thenBody.map (·.number)))
  lift (discard (Parser.expect .closeBracket))
  lift (discard (Parser.expect .elseWord))
  lift (discard (Parser.expect .openBracket))
  let between ← lineNow
  note (.steps [line] (between + 1))
  let elseBody ← statements
  note (.adopted line (elseBody.map (·.number)))
  lift (discard (Parser.expect .closeBracket))
  let last ← lineNow
  -- the ends are looked up in the nodes, which gives zero for an empty list
  let ends : BranchEnds :=
    ⟨(Stmt.listTree "\x7b" thenBody).lastNumber, (Stmt.listTree "\x7b" elseBody).lastNumber⟩
  note { statements := [⟨line, "IF", condition, line, last, some ends⟩] }
  return .node "IF" "" line [.node "NAME" condition line [], Stmt.listTree "\x7b" thenBody,
    Stmt.listTree "\x7b" elseBody]

def statementWith (statements : Recorder Tables (List Tree)) : Recorder Tables Tree := do
  lift (modify fun s => { s with line := s.line + 1 })
  match ← lift Parser.peek with
  | some .whileWord => loopWith statements
  | some .callWord => call
  | some .ifWord => branchWith statements
  | _ => assignment

/-- Notes that a statement comes after the one before it in its list, if there is one. -/
def join (before : Option Tree) (t : Tree) : Recorder Tables Unit :=
  match before with
  | none => return ()
  | some previous =>
    match previous.endings? with
    | none => lift (throw .emptyList)
    | some endings => note (.joined previous.number endings t.number)

def statementsFrom (statement : Recorder Tables Tree)
    : Nat → Option Tree → Recorder Tables (List Tree)
  | 0, _ => lift (throw .exhausted)
  | fuel + 1, before => do
      if (← lift Parser.peek) = some .closeBracket then
        return []
      else
        let t ← statement
        join before t
        let rest ← statementsFrom statement fuel (some t)
        return t :: rest

def statementsWithin : Nat → Recorder Tables (List Tree)
  | 0 => lift (throw .exhausted)
  | fuel + 1 => statementsFrom (statementWith (statementsWithin fuel)) fuel none

def statements : Recorder Tables (List Tree) := fun state =>
  statementsWithin state.1.budget state

def procedure : Recorder Tables Tree := do
  lift (discard (Parser.expect .procedureWord))
  let name ← lift (Parser.expect .name)
  lift (discard (Parser.expect .openBracket))
  let before ← lineNow
  let body ← statements
  let last ← lineNow
  note { procedures := [⟨name, before + 1, last⟩] }
  lift (discard (Parser.expect .closeBracket))
  return .node "PROCEDURE" name 0 [Stmt.listTree "\x7b" body]

def procedures : Nat → Recorder Tables (List Tree)
  | 0 => lift (throw .exhausted)
  | fuel + 1 => do
      if (← lift Parser.peek) = some .procedureWord then
        let first ← procedure
        let rest ← procedures fuel
        return first :: rest
      else
        return []

def program (title : String) : Recorder Tables Tree := do
  lift (modify ParserState.advance)
  let s ← lift get
  let procedures ← procedures s.budget
  write fun t => some t.sorted
  return .node "PROGRAM" title 0 procedures

end Writer

end Program

mutual

/-- What is written while a statement is read, if its number is `line`. -/
def Stmt.log (line : Nat) : Stmt → Program.Log
  | .assign target value => { statements := [(Stmt.assign target value).entry line] }
  | .call callee => { statements := [(Stmt.call callee).entry line] }
  | .loop condition body =>
    .steps [line] (line + 1) ++ Stmt.logs (line + 1) none body
      ++ { statements := [(Stmt.loop condition body).entry line] }
      ++ .steps (Stmt.listExits (line + 1) body) line
      ++ ({ parent := [(line, none)] } ++ .adopted line (Stmt.lines (line + 1) body))
  | .branch condition thenBody elseBody =>
    let elseLine := line + 1 + Stmt.sizes thenBody
    .steps [line] (line + 1) ++ Stmt.logs (line + 1) none thenBody
      ++ ({ parent := [(line, none)] } ++ .adopted line (Stmt.lines (line + 1) thenBody))
      ++ .steps [line] elseLine ++ Stmt.logs elseLine none elseBody
      ++ .adopted line (Stmt.lines elseLine elseBody)
      ++ { statements := [(Stmt.branch condition thenBody elseBody).entry line] }

/-- What is written while a list is read, given the statement before its first one with its number. -/
def Stmt.logs (line : Nat) (before : Option (Nat × Stmt)) : List Stmt → Program.Log
  | [] => {}
  | s :: rest =>
    s.log line ++ ((before.map fun previous =>
        .joined previous.1 (previous.2.exits previous.1) line).getD {})
      ++ Stmt.logs (line + s.size) (some (line, s)) rest

end

def Procedure.log (line : Nat) (p : Procedure) : Program.Log :=
  Stmt.logs line none p.body
    ++ { procedures := [⟨p.name, line, line + Stmt.sizes p.body - 1⟩] }

def Program.logFrom (line : Nat) : List Procedure → Program.Log
  | [] => {}
  | p :: rest => p.log line ++ Program.logFrom (line + Stmt.sizes p.body) rest

theorem Tree.number_toTree (line : Nat) (s : Stmt) : (s.toTree line).number = line := by
  cases s <;> simp [Stmt.toTree, number, line?]

theorem Stmt.map_number_toTrees (line : Nat) (body : List Stmt)
    : (Stmt.toTrees line body).map (·.number) = Stmt.lines line body := by
  induction body generalizing line with
  | nil => rfl
  | cons s rest ih => rw [Stmt.toTrees, List.map_cons, Tree.number_toTree, ih, Stmt.lines]

mutual

/-- The ends found in the nodes of a statement are where control leaves it. The recursion is that of
`Stmt.exits`. -/
theorem Stmt.endings?_toTree (line : Nat) (s : Stmt)
    : (s.toTree line).endings? = if s.ends then some (s.exits line) else none := by
  match s with
  | .assign _ _ => simp [Stmt.toTree, Tree.endings?, Tree.number, Tree.line?, Stmt.ends, Stmt.exits]
  | .call _ => simp [Stmt.toTree, Tree.endings?, Tree.number, Tree.line?, Stmt.ends, Stmt.exits]
  | .loop _ _ => simp [Stmt.toTree, Tree.endings?, Tree.number, Tree.line?, Stmt.ends, Stmt.exits]
  | .branch condition thenBody elseBody =>
    simp only [Stmt.toTree, Tree.endings?, if_true, Tree.branchEndings?, Stmt.listTree,
      Tree.listEndings?, Stmt.lastEndings?_toTrees (line + 1) thenBody,
      Stmt.lastEndings?_toTrees (line + 1 + Stmt.sizes thenBody) elseBody, Stmt.ends, Stmt.exits]
    by_cases first : Stmt.listEnds thenBody = true <;>
      by_cases second : Stmt.listEnds elseBody = true <;> simp [first, second]

theorem Stmt.lastEndings?_toTrees (line : Nat) (body : List Stmt)
    : Tree.lastEndings? (Stmt.toTrees line body)
      = if Stmt.listEnds body then some (Stmt.listExits line body) else none := by
  match body with
  | [] => rfl
  | [s] =>
    rw [Stmt.toTrees, Stmt.toTrees, Tree.lastEndings?, Stmt.endings?_toTree line s, Stmt.listEnds,
      Stmt.listExits]
  | s :: s' :: rest =>
    have further := Stmt.lastEndings?_toTrees (line + s.size) (s' :: rest)
    rw [Stmt.toTrees] at further
    rw [Stmt.toTrees, Stmt.toTrees, Tree.lastEndings?, further, Stmt.listEnds, Stmt.listExits]

end

theorem Expr.lastNumber_toTree (line : Int) (e : Expr) : (e.toTree line).lastNumber = line := by
  induction e with
  | name | literal => simp [Expr.toTree, Tree.lastNumber, Tree.greatest?]
  | binary op left right ihl ihr =>
    simp [Expr.toTree, Tree.lastNumber, Tree.greatest?, ihl, ihr]

mutual

theorem Stmt.lastNumber_toTree (line : Nat) (s : Stmt)
    : (s.toTree line).lastNumber = line + s.size - 1 := by
  match s with
  | .assign _ value =>
    simp [Stmt.toTree, Tree.lastNumber, Tree.greatest?, Expr.lastNumber_toTree, Stmt.size]
  | .call _ => simp [Stmt.toTree, Tree.lastNumber, Tree.greatest?, Stmt.size]
  | .loop _ body =>
    have below := Stmt.greatest?_toTrees (line + 1) body
    simp only [Stmt.toTree, Tree.lastNumber, Tree.greatest?, Stmt.listTree, below, Stmt.size]
    split <;> simp <;> omega
  | .branch _ thenBody elseBody =>
    have first := Stmt.greatest?_toTrees (line + 1) thenBody
    have second := Stmt.greatest?_toTrees (line + 1 + Stmt.sizes thenBody) elseBody
    simp only [Stmt.toTree, Tree.lastNumber, Tree.greatest?, Stmt.listTree, first, second, Stmt.size]
    split <;> split <;> simp <;> omega

/-- The last number of a list that is not empty is that of the last statement within. -/
theorem Stmt.greatest?_toTrees (line : Nat) (body : List Stmt)
    : Tree.greatest? (Stmt.toTrees line body)
      = if Stmt.sizes body = 0 then none else some (line + Stmt.sizes body - 1 : Int) := by
  match body with
  | [] => rfl
  | s :: rest =>
    have first := Stmt.lastNumber_toTree line s
    have others := Stmt.greatest?_toTrees (line + s.size) rest
    have positive := s.size_pos
    have nonempty : s.size + Stmt.sizes rest ≠ 0 := by omega
    rw [Stmt.toTrees, Tree.greatest?, first, others, Stmt.sizes, if_neg nonempty]
    split <;> simp <;> omega

end

theorem Stmt.lastNumber_listTree (line : Nat) (body : List Stmt)
    : (Stmt.listTree "\x7b" (Stmt.toTrees (line + 1) body)).lastNumber
      = if Stmt.sizes body = 0 then 0 else (line + Stmt.sizes body : Int) := by
  rw [Stmt.listTree, Tree.lastNumber, Stmt.greatest?_toTrees]
  split <;> simp
  omega

namespace Program.Writer

open Recorder

variable {m : Parser Stmt} {r : Recorder Tables Tree} {s : ParserState} {t : Tables}

/-- A statement has been read and everything has been written of it. -/
def Written (line : Nat) (t : Tables) (a : Stmt) (s' : ParserState) (b : Tree) (t' : Tables) : Prop :=
  b = a.toTree line ∧ s'.line + 1 = line + a.size ∧ t' = t.enter (a.log line)

/-- A list has been read and everything has been written of it. -/
def WrittenList (line : Nat) (before : Option (Nat × Stmt)) (t : Tables) (body : List Stmt)
    (s' : ParserState) (b : List Tree) (t' : Tables)
    : Prop :=
  b = Stmt.toTrees line body ∧ s'.line + 1 = line + Stmt.sizes body
    ∧ t' = t.enter (Stmt.logs line before body)

theorem tracks_note {α β : Type} {m : Parser α} {k : Unit → Recorder Tables β} {l : Log}
    {post : α → ParserState → β → Tables → Prop} (tracks : Tracks m (k ()) s (t.enter l) post)
    : Tracks m (note l >>= k) s t post :=
  .write rfl tracks

theorem tracks_assignment : Tracks Parser.assignment assignment s t (Written s.line t) := by
  refine .lineNow ?_
  refine (Tracks.expect .name).bind ?_
  rintro target s₁ _ _ ⟨rfl, rfl, line₁⟩
  refine tracks_note ?_
  refine (Tracks.word .assign).bind ?_
  rintro _ s₂ _ _ ⟨rfl, line₂⟩
  refine Tracks.expression.bind ?_
  rintro value s₃ _ _ ⟨rfl, rfl, line₃⟩
  refine (Tracks.word .semicolon).bind ?_
  rintro _ s₄ _ _ ⟨rfl, line₄⟩
  refine .pure ⟨rfl, ?_, ?_⟩
  · rw [line₄, line₃, line₂, line₁]
    rfl
  · simp [Stmt.log, Stmt.entry, Stmt.kind, Stmt.head, Stmt.size, Stmt.branchEnds?]

theorem tracks_call : Tracks Parser.call call s t (Written s.line t) := by
  refine .lineNow ?_
  refine (Tracks.word .callWord).bind ?_
  rintro _ s₁ _ _ ⟨rfl, line₁⟩
  refine (Tracks.expect .name).bind ?_
  rintro callee s₂ _ _ ⟨rfl, rfl, line₂⟩
  refine tracks_note ?_
  refine (Tracks.word .semicolon).bind ?_
  rintro _ s₃ _ _ ⟨rfl, line₃⟩
  refine .pure ⟨rfl, ?_, ?_⟩
  · rw [line₃, line₂, line₁]
    rfl
  · simp [Stmt.log, Stmt.entry, Stmt.kind, Stmt.head, Stmt.size, Stmt.branchEnds?]

section Lists

variable {plain : Parser (List Stmt)} {lists : Recorder Tables (List Tree)}
  (reads : ∀ (s : ParserState) (t : Tables),
    Tracks plain lists s t (WrittenList (s.line + 1) none t))
include reads

theorem tracks_loopWith
    : Tracks (Parser.loopWith plain) (loopWith lists) s t (Written s.line t) := by
  refine .lineNow ?_
  refine (Tracks.word .whileWord).bind ?_
  rintro _ s₁ _ _ ⟨rfl, line₁⟩
  refine (Tracks.expect .name).bind ?_
  rintro condition s₂ _ _ ⟨rfl, rfl, line₂⟩
  refine (Tracks.word .openBracket).bind ?_
  rintro _ s₃ _ _ ⟨rfl, line₃⟩
  have line : s₃.line = s.line := by rw [line₃, line₂, line₁]
  refine .lineNow (tracks_note ?_)
  refine (reads s₃ _).bind ?_
  rintro body s₄ _ _ ⟨rfl, line₄, rfl⟩
  rw [line] at line₄ ⊢
  refine .lineNow (tracks_note ?_)
  rw [goBack, Stmt.lastEndings?_toTrees]
  dsimp only
  -- both parsers stop at a body that control never leaves
  cases ends : Stmt.listEnds body with
  | false => exact .throw_bind _ _ _
  | true =>
    refine tracks_note (tracks_note ?_)
    refine (Tracks.word .closeBracket).bind ?_
    rintro _ s₅ _ _ ⟨rfl, line₅⟩
    have entry : (Stmt.loop condition body).entry s.line
        = ⟨s.line, "WHILE", condition, s.line, s₄.line, none⟩ := by
      simp only [Stmt.entry, Stmt.kind, Stmt.head, Stmt.branchEnds?, Stmt.size]
      congr 1
      omega
    refine .pure ⟨rfl, ?_, ?_⟩
    · rw [line₅, line₄, Stmt.size]
      omega
    · rw [Stmt.log, entry]
      simp only [Tables.enter_append, Stmt.map_number_toTrees]

theorem tracks_branchWith
    : Tracks (Parser.branchWith plain) (branchWith lists) s t (Written s.line t) := by
  refine .lineNow ?_
  refine (Tracks.word .ifWord).bind ?_
  rintro _ s₁ _ _ ⟨rfl, line₁⟩
  refine (Tracks.expect .name).bind ?_
  rintro condition s₂ _ _ ⟨rfl, rfl, line₂⟩
  refine (Tracks.word .thenWord).bind ?_
  rintro _ s₃ _ _ ⟨rfl, line₃⟩
  refine (Tracks.word .openBracket).bind ?_
  rintro _ s₄ _ _ ⟨rfl, line₄⟩
  have line : s₄.line = s.line := by rw [line₄, line₃, line₂, line₁]
  refine .lineNow (tracks_note ?_)
  refine (reads s₄ _).bind ?_
  rintro thenBody s₅ _ _ ⟨rfl, line₅, rfl⟩
  rw [line] at line₅ ⊢
  refine tracks_note ?_
  refine (Tracks.word .closeBracket).bind ?_
  rintro _ s₆ _ _ ⟨rfl, line₆⟩
  refine (Tracks.word .elseWord).bind ?_
  rintro _ s₇ _ _ ⟨rfl, line₇⟩
  refine (Tracks.word .openBracket).bind ?_
  rintro _ s₈ _ _ ⟨rfl, line₈⟩
  -- the second list starts where the first one has brought the count
  have line' : s₈.line = s.line + Stmt.sizes thenBody := by omega
  refine .lineNow (tracks_note ?_)
  refine (reads s₈ _).bind ?_
  rintro elseBody s₉ _ _ ⟨rfl, line₉, rfl⟩
  refine tracks_note ?_
  refine (Tracks.word .closeBracket).bind ?_
  rintro _ s₁₀ _ _ ⟨rfl, line₁₀⟩
  refine .lineNow (tracks_note ?_)
  have elseLine : s₈.line + 1 = s.line + 1 + Stmt.sizes thenBody := by omega
  have entry : (Stmt.branch condition thenBody elseBody).entry s.line
      = ⟨s.line, "IF", condition, s.line, s₁₀.line,
        some ⟨(Stmt.listTree "\x7b" (Stmt.toTrees (s.line + 1) thenBody)).lastNumber,
          (Stmt.listTree "\x7b" (Stmt.toTrees (s₈.line + 1) elseBody)).lastNumber⟩⟩ := by
    simp only [Stmt.entry, Stmt.kind, Stmt.head, Stmt.branchEnds?, Stmt.size,
      Stmt.lastNumber_listTree, line', Nat.cast_add]
    congr 1
    omega
  refine .pure ⟨?_, ?_, ?_⟩
  · rw [Stmt.toTree, elseLine]
  · rw [line₁₀, line₉, Stmt.size]
    omega
  · rw [Stmt.log, entry, ← elseLine]
    simp only [Tables.enter_append, Stmt.map_number_toTrees]

theorem tracks_statementWith
    : Tracks (Parser.statementWith plain) (statementWith lists) s t (Written (s.line + 1) t) := by
  let counted : ParserState := { s with line := s.line + 1 }
  have chosen : Tracks
      (do
        match ← Parser.peek with
        | some .whileWord => Parser.loopWith plain
        | some .callWord => Parser.call
        | some .ifWord => Parser.branchWith plain
        | _ => Parser.assignment)
      (do
        match ← Recorder.lift Parser.peek with
        | some .whileWord => loopWith lists
        | some .callWord => call
        | some .ifWord => branchWith lists
        | _ => assignment)
      counted t (Written counted.line t) := by
    refine .peek ?_
    split
    · exact tracks_loopWith reads
    · exact tracks_call
    · exact tracks_branchWith reads
    · exact tracks_assignment
  exact chosen

end Lists

/-- A statement is joined to the one before once it has been read. -/
theorem tracks_statementsFrom {plain : Parser Stmt} {statement : Recorder Tables Tree}
    (reads : ∀ (s : ParserState) (t : Tables), Tracks plain statement s t (Written (s.line + 1) t))
    {fuel : Nat} (before : Option (Nat × Stmt))
    : Tracks (Parser.statementsFrom plain fuel (before.map (·.2)))
        (statementsFrom statement fuel (before.map fun previous => previous.2.toTree previous.1)) s t
        (WrittenList (s.line + 1) before t) := by
  -- the statement before is generalized, since the next one is joined to the one just read
  induction fuel generalizing before s t with
  | zero => exact .throw _
  | succ fuel ih =>
    refine .peek ?_
    split
    · exact .pure ⟨rfl, rfl, (Tables.enter_nothing t).symm⟩
    · refine (reads s t).bind ?_
      rintro first s₁ _ _ ⟨rfl, line₁, rfl⟩
      have others (joint : Log) (t₁ : Tables) (same : t₁ = (t.enter (first.log (s.line + 1))).enter joint)
          (is : ((before.map fun previous =>
            Log.joined previous.1 (previous.2.exits previous.1) (s.line + 1)).getD {}) = joint)
          : Tracks (do
              let rest ← Parser.statementsFrom plain fuel (some first)
              return first :: rest)
            (do
              let rest ← statementsFrom statement fuel (some (first.toTree (s.line + 1)))
              return first.toTree (s.line + 1) :: rest) s₁ t₁
            (WrittenList (s.line + 1) before t) := by
        refine (ih (some (s.line + 1, first))).bind ?_
        rintro rest s₂ _ _ ⟨rfl, line₂, rfl⟩
        rw [line₁] at line₂ ⊢
        refine .pure ⟨rfl, ?_, ?_⟩
        · rw [line₂, Stmt.sizes, Nat.add_assoc]
        · rw [Stmt.logs, Tables.enter_append, Tables.enter_append, is, same]
      cases before with
      | none => exact others {} _ (Tables.enter_nothing _).symm rfl
      | some previous =>
        simp only [Option.map_some, Option.any_some, join, Stmt.endings?_toTree, Tree.number_toTree]
        cases ends : previous.2.ends with
        | false => exact .throw_bind _ _ _
        | true => exact tracks_note (others _ _ rfl rfl)

theorem tracks_statementsWithin (fuel : Nat)
    : Tracks (Parser.statementsWithin fuel) (statementsWithin fuel) s t
        (WrittenList (s.line + 1) none t) := by
  induction fuel generalizing s t with
  | zero => exact .throw _
  | succ fuel ih =>
    exact tracks_statementsFrom (fun s t => tracks_statementWith fun s t => ih) none

theorem tracks_procedure
    : Tracks Parser.procedure procedure s t fun a s' b t' =>
        b = a.toTree (s.line + 1) ∧ s'.line = s.line + Stmt.sizes a.body
          ∧ t' = t.enter (a.log (s.line + 1)) := by
  refine (Tracks.word .procedureWord).bind ?_
  rintro _ s₁ _ _ ⟨rfl, line₁⟩
  refine (Tracks.expect .name).bind ?_
  rintro name s₂ _ _ ⟨rfl, rfl, line₂⟩
  refine (Tracks.word .openBracket).bind ?_
  rintro _ s₃ _ _ ⟨rfl, line₃⟩
  have line : s₃.line = s.line := by rw [line₃, line₂, line₁]
  refine .lineNow ?_
  have body : Tracks Parser.statements statements s₃ _ (WrittenList (s₃.line + 1) none t) :=
    Tracks.of_budget (m := Parser.statementsWithin) (k := statementsWithin)
      (tracks_statementsWithin s₃.budget)
  refine body.bind ?_
  rintro body s₄ _ _ ⟨rfl, line₄, rfl⟩
  rw [line] at line₄ ⊢
  refine .lineNow (tracks_note ?_)
  refine (Tracks.word .closeBracket).bind ?_
  rintro _ s₅ _ _ ⟨rfl, line₅⟩
  refine .pure ⟨rfl, by dsimp only; omega, ?_⟩
  have finish : (↑(s.line + 1) + ↑(Stmt.sizes body) - 1 : Int) = s₄.line := by omega
  rw [Procedure.log, Tables.enter_append, finish]
  simp

theorem tracks_procedures (fuel : Nat)
    : Tracks (Parser.procedures fuel) (procedures fuel) s t fun a _ b t' =>
        b = (Program.starts (s.line + 1) a).map (fun entry => entry.2.toTree entry.1)
          ∧ t' = t.enter (Program.logFrom (s.line + 1) a) := by
  induction fuel generalizing s t with
  | zero => exact .throw _
  | succ fuel ih =>
    refine .peek ?_
    split
    · refine tracks_procedure.bind ?_
      rintro first s₁ _ _ ⟨rfl, line₁, rfl⟩
      refine ih.bind ?_
      rintro rest s₂ _ _ ⟨rfl, rfl⟩
      rw [line₁, Nat.add_right_comm]
      exact .pure ⟨rfl, by rw [Program.logFrom, Tables.enter_append]⟩
    · exact .pure ⟨rfl, (Tables.enter_nothing t).symm⟩

/-- On every text the parser with tables does what the parser without them does. If a program is read,
the nodes are those of the program, and the tables hold what is written of its statements.
-/
theorem tracks_program (title text : String)
    : Tracks Parser.program (program title) (.start text) .empty fun p _ b t =>
        b = p.toTree title ∧ t = (Tables.empty.enter (Program.logFrom 1 p.procedures)).sorted := by
  refine (Tracks.modify ParserState.advance).bind ?_
  rintro _ _ _ _ ⟨rfl, rfl⟩
  refine Tracks.get.bind ?_
  rintro _ _ _ _ ⟨rfl, rfl, rfl, rfl⟩
  refine (tracks_procedures _).bind ?_
  rintro list stop _ _ ⟨rfl, rfl⟩
  have first : (ParserState.start text).advance.line = 0 := ParserState.line_advance _
  rw [first]
  refine .write rfl (.pure ⟨rfl, rfl⟩)

end Program.Writer

end ProgramQuery

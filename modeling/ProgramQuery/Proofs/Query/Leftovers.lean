import ProgramQuery.Proofs.Program.Leftovers
import ProgramQuery.Proofs.Query.Readings
import ProgramQuery.Proofs.Query.RoundTrip

/-! What stands behind the last clause of a query. Clauses are read for as long as the next token starts
one, and nothing asks whether the text ends there.
-/

namespace ProgramQuery

namespace Text.Recogniser

/-- A recogniser gives the front of the input and what is left of it. -/
def Splits (r : Recogniser) : Prop :=
  ∀ cs lexeme rest, r cs = some (lexeme, rest) → cs = lexeme ++ rest

theorem splits_literal (word : List Char) : (literal word).Splits := by
  intro cs lexeme rest found
  obtain ⟨rfl, split⟩ := literal_eq_some found
  exact split

theorem splits_run (first more : Char → Bool) : (run first more).Splits := by
  intro cs lexeme rest found
  obtain ⟨-, -, -, -, -, split⟩ := run_eq_some found
  exact split

theorem splits_one (p : Char → Bool) : (one p).Splits := by
  intro cs lexeme rest found
  cases cs with
  | nil => cases found
  | cons c cs =>
    simp only [one] at found
    split at found
    · cases found
      rfl
    · cases found

theorem Splits.seq {first second : Recogniser} (cuts : first.Splits) (cuts' : second.Splits)
    : (seq first second).Splits := by
  intro cs lexeme rest found
  obtain ⟨a, b, middle, taken, taken', rfl⟩ := seq_eq_some found
  rw [cuts cs a middle taken, cuts' middle b rest taken', List.append_assoc]

theorem Splits.firstOf {choices : List Recogniser} (each : ∀ r ∈ choices, r.Splits)
    : (firstOf choices).Splits := by
  intro cs lexeme rest found
  obtain ⟨r, listed, taken⟩ := List.exists_of_findSome?_eq_some found
  exact each r listed cs lexeme rest taken

theorem Splits.spaced {r : Recogniser} (cuts : r.Splits) : (spaced r).Splits := by
  intro cs lexeme rest found
  obtain ⟨word, rfl, taken⟩ := spaced_eq_some found
  rw [List.append_assoc, ← cuts _ word rest taken, dropBlanks, List.takeWhile_append_dropWhile]

end Text.Recogniser

namespace Query

open Text

theorem TokenKind.recognise_splits (kind : TokenKind) : kind.recognise.Splits := by
  have word (w : String) : (Recogniser.word w).Splits := (Recogniser.splits_literal _).spaced
  cases kind with
  | attr =>
    refine .firstOf (List.forall_mem_map.mpr fun w _ => ?_)
    exact (Recogniser.splits_one _).seq (Recogniser.splits_literal _)
  | declaration =>
    exact .firstOf (List.forall_mem_map.mpr fun w _ => (word w).seq (Recogniser.splits_one _))
  | quotedName =>
    exact (word _).seq ((Recogniser.splits_run _ _).seq (Recogniser.splits_literal _))
  | name => exact (Recogniser.splits_run _ _).spaced
  | integer => exact (Recogniser.splits_run _ _).spaced
  | _ => exact word _

theorem Token.scan_split {admitted : TokenKind → Bool} {cs rest : List Char} {t : Token}
    (found : Token.scan admitted cs = some (t, rest))
    : cs = t.text.toList ++ rest := by
  obtain ⟨kind, -, found⟩ := List.exists_of_findSome?_eq_some found
  split at found
  · split at found
    · next lexeme rest' accepted =>
      cases found
      rw [String.toList_ofList]
      exact kind.recognise_splits cs lexeme rest accepted
    · cases found
  · cases found

namespace ParserState

def unread (s : ParserState) : List Char :=
  (rawText s.next).toList ++ s.rest

/-- Whether a token of a kind can come next. After a dot only a name can. -/
def admits (s : ParserState) (kind : TokenKind) : Bool :=
  !decide (s.prev.map (·.kind) = some .dot) || kind == .name

def Looks (s : ParserState) : Prop :=
  Token.scan s.admits s.unread = s.next.map (·, s.rest)

theorem unread_advance (s : ParserState) : s.advance.unread = s.rest := by
  simp only [unread, advance, read]
  split
  · next found => exact (Token.scan_split found).symm
  · rfl

theorem looks_advance (s : ParserState) : s.advance.Looks := by
  rw [Looks, unread_advance]
  simp only [advance, read]
  split
  · next found => exact found
  · next nothing => exact nothing

/-- Nothing is lost between two tokens. -/
theorem unread_eq (s : ParserState) : s.unread = (rawText s.next).toList ++ s.shifted.unread := by
  rw [shifted, unread_advance, unread]

theorem Step.leaves {s s' : ParserState} (step : Step s s') (looks : s.Looks)
    : s'.Looks ∧ s'.unread <:+ s.unread := by
  cases step with
  | shift => exact ⟨looks_advance _, s.unread_eq ▸ List.suffix_append _ _⟩
  | declare => exact ⟨looks, List.suffix_refl _⟩
  | select => exact ⟨looks, List.suffix_refl _⟩

theorem leaves_of_steps {s s' : ParserState} (steps : Relation.ReflTransGen Step s s') (looks : s.Looks)
    : s'.Looks ∧ s'.unread <:+ s.unread := by
  induction steps with
  | refl => exact ⟨looks, List.suffix_refl _⟩
  | tail _ last ih =>
    obtain ⟨looks', taken⟩ := last.leaves ih.1
    exact ⟨looks', taken.trans ih.2⟩

end ParserState

namespace Parser

variable {fixed : Option (Keyed (Option String))} {scope : Scope} {s : ParserState}

def startsClause (kind : TokenKind) : Bool :=
  [.suchThat, .withWord, .pattern].contains kind

theorem startsClause_iff {kind : TokenKind}
    : startsClause kind = true ↔ kind = .suchThat ∨ kind = .withWord ∨ kind = .pattern := by
  simp [startsClause]

/-- A clause as it was read: which kind of clause it is, the conditions that it gave and its text. -/
structure Piece where
  kind : TokenKind
  conditions : List Tree
  text : List Char

/-- The text of a clause starts with its word, and there is a condition. -/
structure Piece.IsClause (piece : Piece) : Prop where
  starts : startsClause piece.kind = true
  conditions : piece.conditions ≠ []
  text : ∃ word gap body, piece.kind.spelling? = some word ∧ (∀ c ∈ gap, isBlank c)
    ∧ piece.text = gap ++ (word.toList ++ body)

def Clauses.take (found : Clauses) (kind : TokenKind) (more : List Tree) : Clauses :=
  match kind with
  | .suchThat => { found with relations := found.relations ++ more }
  | .withWord => { found with withs := found.withs ++ more }
  | .pattern => { found with patterns := found.patterns ++ more }
  | _ => found

def Clauses.ofPieces (pieces : List Piece) (found : Clauses) : Clauses :=
  pieces.foldl (fun found piece => found.take piece.kind piece.conditions) found

/-- The word of a clause is in the text right behind some blanks. -/
theorem exists_piece {s' : ParserState} {kind : TokenKind} {conditions : List Tree}
    (regular : s.Regular fixed) (next : s.next.map (·.kind) = some kind) (starts : startsClause kind = true)
    (nonempty : conditions ≠ []) (left : s'.unread <:+ s.shifted.unread)
    : ∃ text, (Piece.mk kind conditions text).IsClause ∧ s.unread = text ++ s'.unread := by
  obtain ⟨t, found, rfl⟩ := Option.map_eq_some_iff.mp next
  obtain ⟨cs, rest, accepted⟩ := regular.next t found
  obtain ⟨body, taken⟩ := left
  obtain ⟨word, spelled⟩ : ∃ word, t.kind.spelling? = some word := by
    rcases startsClause_iff.mp starts with same | same | same
    all_goals
      rw [same]
      exact ⟨_, rfl⟩
  rw [TokenKind.recognise_of_spelling spelled] at accepted
  obtain ⟨word', front, inner⟩ := Recogniser.spaced_eq_some accepted
  obtain ⟨rfl, -⟩ := Recogniser.literal_eq_some inner
  refine ⟨t.text.toList ++ body, ⟨starts, nonempty, word, cs.takeWhile isBlank, body, spelled,
    fun c => List.mem_takeWhile_imp, ?_⟩, ?_⟩
  · rw [front, List.append_assoc]
  · rw [s.unread_eq, found, List.append_assoc, taken]
    rfl

theorem reads_joined_nonempty {condition : Parser Tree}
    (reads : ∀ {s : ParserState}, Reads fixed scope s condition fun _ _ => True) (fuel : Nat)
    : Reads fixed scope s (joined condition fuel) fun ts _ => ts ≠ [] := by
  cases fuel with
  | zero => exact .throw _
  | succ fuel =>
    refine reads.bind fun first _ _ => .peek ?_
    split
    · refine reads_shift.bind fun _ _ _ => (reads_joined reads fuel).bind ?_
      exact fun _ _ _ => .pure (List.cons_ne_nil _ _)
    · exact .pure (List.cons_ne_nil _ _)

/-- Clauses are read until something starts no clause. Their texts follow each other, and all their
conditions are found. -/
theorem reads_clauses_pieces (fuel : Nat) (looks : s.Looks) (found : Clauses)
    : Reads fixed scope s (clauses fuel found) fun found' s' => s'.Looks
        ∧ (∀ t ∈ s'.next, startsClause t.kind = false)
        ∧ ∃ pieces, s.unread = pieces.flatMap Piece.text ++ s'.unread
          ∧ (∀ piece ∈ pieces, piece.IsClause) ∧ found' = Clauses.ofPieces pieces found := by
  induction fuel generalizing s found with
  | zero => exact .throw _
  | succ fuel ih =>
    have clause {condition : Parser Tree} (kind : TokenKind)
        (reads : ∀ {s : ParserState}, Reads fixed scope s condition fun _ _ => True)
        (next : s.next.map (·.kind) = some kind) (starts : startsClause kind = true)
        : Reads fixed scope s (do
            shift
            let more ← (do joined condition (← get).budget)
            clauses fuel (found.take kind more)) fun found' s' => s'.Looks
          ∧ (∀ t ∈ s'.next, startsClause t.kind = false)
          ∧ ∃ pieces, s.unread = pieces.flatMap Piece.text ++ s'.unread
            ∧ (∀ piece ∈ pieces, piece.IsClause) ∧ found' = Clauses.ofPieces pieces found := by
      have shifts : Reads fixed scope s shift fun _ s' => s' = s.shifted :=
        ⟨fun regular a s' given => ⟨(reads_shift.given regular a s' given).1,
          (reads_shift.given regular a s' given).2.1, by cases given; rfl⟩⟩
      refine .regularly fun regular => shifts.bind ?_
      rintro _ s₁ rfl
      have conditions : Reads fixed scope s.shifted (do joined condition (← get).budget) _ :=
        (Reads.get (reads_joined_nonempty reads _)).stepping
      refine conditions.bind ?_
      rintro more s₂ ⟨nonempty, steps⟩
      obtain ⟨looks₂, left⟩ := ParserState.leaves_of_steps steps (ParserState.looks_advance _)
      obtain ⟨text, isClause, taken⟩ := exists_piece regular next starts nonempty left
      refine (ih looks₂ _).mono ?_
      rintro found' s₃ ⟨looks₃, stop, pieces, read, clauses, rfl⟩
      refine ⟨looks₃, stop, ⟨kind, more, text⟩ :: pieces, ?_,
        List.forall_mem_cons.mpr ⟨isClause, clauses⟩, rfl⟩
      rw [taken, read, List.flatMap_cons, List.append_assoc]
    refine .peek ?_
    split
    · next next =>
      exact clause .suchThat (reads_relRef.mono fun _ _ _ => trivial) next rfl
    · next next =>
      exact clause .withWord (reads_attrCond.mono fun _ _ _ => trivial) next rfl
    · next next =>
      exact clause .pattern (reads_patternCond.mono fun _ _ _ => trivial) next rfl
    · next noRelation noComparison noPattern =>
      refine .pure ⟨looks, fun t found => ?_, [], rfl, by simp, rfl⟩
      rw [Option.mem_def.mp found, Option.map_some] at noRelation noComparison noPattern
      rw [Bool.eq_false_iff]
      intro starts
      rcases startsClause_iff.mp starts with same | same | same
      · exact noRelation (congrArg some same)
      · exact noComparison (congrArg some same)
      · exact noPattern (congrArg some same)

theorem Run.pieces {s₁ s₂ s' : ParserState} {result : Tree} {found : Clauses}
    (run : Run scope s result s₁ found s₂ s') (looks : s.Looks)
    : s'.Looks ∧ (∀ t ∈ s'.next, startsClause t.kind = false)
      ∧ ∃ opening pieces, s.unread = opening ++ (pieces.flatMap Piece.text ++ s'.unread)
        ∧ (∀ piece ∈ pieces, piece.IsClause) ∧ found = Clauses.ofPieces pieces {} := by
  obtain ⟨looks₁, opening, taken⟩ := ParserState.leaves_of_steps run.steps looks
  have noted : ParserState.Looks { s₁ with parts := s₁.parts ++ [.node "RESULT" "" 0 [result]] } :=
    looks₁
  obtain ⟨-, -, looks₂, stop, pieces, left, clauses, rfl⟩ :=
    (reads_clauses_pieces _ noted {}).given run.regular found s₂ run.clauses
  rw [run.stop]
  refine ⟨looks₂, stop, opening, pieces, ?_, clauses, rfl⟩
  rw [← taken]
  exact congrArg (opening ++ ·) left

end Parser

/-- A text was read up to some leftover of it: the declarations and what is selected, and then clauses
whose conditions make up the tree. The leftover starts with no clause. -/
structure Reading.Leaves (r : Reading) (text : String) (leftover : List Char) : Prop where
  front : ∃ result opening pieces,
    text.toList.filter (· != '\n') = opening ++ (pieces.flatMap Parser.Piece.text ++ leftover)
    ∧ (∀ piece ∈ pieces, piece.IsClause) ∧ r.tree = (Parser.Clauses.ofPieces pieces {}).query result
  stop : ∀ t rest, Token.scan r.stop.admits leftover = some (t, rest) →
    Parser.startsClause t.kind = false

theorem Reading.exists_leaves {scope : Scope} {text : String} {r : Reading}
    (accepted : Reading.ofText scope text = .ok r)
    : ∃ leftover, r.Leaves text leftover := by
  obtain ⟨result, s₁, found, s₂, run, tree⟩ := Reading.exists_run accepted
  obtain ⟨looks, ended, opening, pieces, read, clauses, rfl⟩ :=
    run.pieces (ParserState.looks_advance _)
  rw [ParserState.unread_advance] at read
  refine ⟨r.stop.unread, ⟨result, opening, pieces, read, clauses, tree⟩, fun t rest found => ?_⟩
  rw [looks] at found
  obtain ⟨t', next, same⟩ := Option.map_eq_some_iff.mp found
  cases same
  exact ended t next

end Query

open Query Program in
/-- What stands behind the last procedure or the last clause is not looked at. A text that is
accepted as a program is made of the procedures of the program and of a leftover in which no further one
comes first, and a program is accepted with any tokens of that kind behind it. So it is with the clauses
of queries. -/
theorem leftovers_ignored (text : String) (scope : Scope)
    : (∀ a, Analysis.ofText text = .ok a → ∃ leftover, a.Leaves text leftover)
      ∧ (∀ (p : Program) more, (∀ t ∈ p.tokens ++ more, t.unmistakable = true) →
          (∀ procedure ∈ p.procedures, ∀ s ∈ procedure.body, s.Throughout Stmt.filled) →
          (∀ name, ¬ Relation.TransGen p.Calls name name) → Laid (p.tokens ++ more) text.toList →
          (∀ t ∈ more.head?, t.kind ≠ .procedureWord) →
            ∃ a, Analysis.ofText text = .ok a ∧ a.program = p)
      ∧ (∀ r, Reading.ofText scope text = .ok r → ∃ leftover, r.Leaves text leftover)
      ∧ ∀ q : Query, q.WellFormed scope → ∀ tight more, (∀ t ∈ more, t.Plain) →
          (∀ t ∈ more.head?, Query.Parser.goesOn t.kind = false) →
            ∃ stop, Reading.ofText scope (String.ofList (laidOut tight (q.tokens ++ more)))
              = .ok ⟨q.tree, stop⟩ :=
  ⟨fun _ => Analysis.exists_leaves,
    fun _ _ clear filled acyclic => Analysis.ofText_of_laid_before clear filled acyclic,
    fun _ => Reading.exists_leaves,
    fun _ formed tight _ plain stop =>
      (Reading.ofText_laidOut_before formed tight plain stop).imp fun _ => And.left⟩

set_option maxRecDepth 10000 in
/-- A word behind a program and a word behind a query. -/
theorem leftovers_ignored_word
    : (∃ a leftover, Analysis.ofText " procedure p \x7b x = 1 ; \x7d junk" = .ok a
        ∧ a.Leaves " procedure p \x7b x = 1 ; \x7d junk" leftover)
      ∧ ∃ r leftover, Query.Reading.ofText ⟨["p"], ["x"], 1⟩ "stmt s ; Select s j1" = .ok r
        ∧ r.Leaves "stmt s ; Select s j1" leftover := by
  constructor
  · let p : Program := ⟨[⟨"p", [.assign "x" (.literal "1")]⟩]⟩
    let junk : List Program.Token := [⟨.name, "junk"⟩]
    have filled : ∀ procedure ∈ p.procedures, ∀ s ∈ procedure.body, s.Throughout Stmt.filled := by
      refine List.forall_mem_singleton.mpr (List.forall_mem_singleton.mpr ?_)
      exact Stmt.throughout_iff.mpr ⟨rfl, by simp [Stmt.parts]⟩
    have acyclic (name : String) : ¬ Relation.TransGen p.Calls name name := by
      intro cycle
      obtain ⟨callee, call, -⟩ := Relation.TransGen.head'_iff.mp cycle
      rw [← Program.mem_columnsOf_callGrid] at call
      exact absurd (Grid.mem_rowNames_of_mem_columnsOf call) (List.not_mem_nil)
    have laid := Laid.spaces (p.tokens ++ junk)
    rw [← @String.toList_ofList ((p.tokens ++ junk).flatMap _)] at laid
    have text : String.ofList ((p.tokens ++ junk).flatMap fun t => ' ' :: t.text.toList)
        = " procedure p \x7b x = 1 ; \x7d junk" := by
      decide
    rw [text] at laid
    obtain ⟨a, accepted, -⟩ :=
      (leftovers_ignored _ ⟨[], [], 0⟩).2.1 p junk (by decide) filled acyclic laid (by simp [junk])
    obtain ⟨leftover, leaves⟩ := (leftovers_ignored _ ⟨[], [], 0⟩).1 a accepted
    exact ⟨a, leftover, accepted, leaves⟩
  · let q : Query := ⟨[⟨.statement, ["s"]⟩], some "s", []⟩
    let junk : List Query.Token := [Query.synonymToken "j1"]
    have formed : q.WellFormed ⟨["p"], ["x"], 1⟩ := by
      refine ⟨by decide, by decide, ?_, by simp [q]⟩
      intro x chosen
      cases chosen
      exact ⟨.statement, rfl⟩
    have plain : ∀ t ∈ junk, t.Plain :=
      List.forall_mem_singleton.mpr (Query.synonymToken_plain (by decide))
    obtain ⟨stop, accepted⟩ :=
      (leftovers_ignored "" _).2.2.2 q formed true junk plain (by decide)
    have text : String.ofList (Query.laidOut true (q.tokens ++ junk)) = "stmt s ; Select s j1" := by
      decide
    rw [text] at accepted
    obtain ⟨leftover, leaves⟩ := (leftovers_ignored _ _).2.2.1 _ accepted
    exact ⟨_, leftover, accepted, leaves⟩

set_option maxRecDepth 10000 in
/-- More than white space may be left: a word behind a program, and one behind a query. -/
theorem leftovers_of_words
    : (∃ a, Analysis.ofText "procedure p \x7b x = 1; \x7d junk" = .ok a
        ∧ a.program.procedures.map (·.name) = ["p"] ∧ a.stop.next = .token ⟨.name, "junk"⟩)
      ∧ ∃ r, Query.Reading.ofText ⟨["p"], ["x"], 1⟩ "stmt s; Select s junk" = .ok r
        ∧ r.tree = .node "QUERY" "query" 0 [.node "RESULT" "" 0 [.leaf "STMT" "s"]]
        ∧ r.stop.next = some ⟨.name, " junk"⟩ := by
  constructor
  · exact exists_ok_of (fun a => a.program.procedures.map (·.name) = ["p"]
      ∧ a.stop.next = .token ⟨.name, "junk"⟩) (by decide +kernel) fun _ _ facts => facts
  · exact exists_ok_of
      (fun r => r.tree = .node "QUERY" "query" 0 [.node "RESULT" "" 0 [.leaf "STMT" "s"]]
        ∧ r.stop.next = some ⟨.name, " junk"⟩) (by decide +kernel) fun _ _ facts => facts

end ProgramQuery

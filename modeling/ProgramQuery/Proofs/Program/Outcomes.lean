import ProgramQuery.Proofs.Program.Recording
import ProgramQuery.Proofs.Program.Spans

/-! How reading a text as a program can end. Every text is accepted, or rejected with one message, or it
has an empty body where an end is needed, or its procedures call each other in a circle. No step budget
runs out and no table is looked up in vain.
-/

open Relation (TransGen)

namespace ProgramQuery

/-- Nothing is recorded of a program exactly if its procedures call each other in a circle. -/
theorem KnowledgeBase.ofProgram?_eq_none_iff {p : Program}
    : KnowledgeBase.ofProgram? p = none ↔ ∃ name, TransGen p.Calls name name := by
  constructor
  · intro unknown
    by_contra acyclic
    push Not at acyclic
    have lists : p.Lists p.callGrid.called? := by
      rw [Program.lists_called?_iff]
      rintro name - ⟨other, -, cycle⟩
      rw [Program.leads_callGrid] at cycle
      exact acyclic other cycle
    obtain ⟨knowledge, known⟩ := KnowledgeBase.exists_ofProgram? lists
    rw [unknown] at known
    cases known
  · rintro ⟨name, cycle⟩
    rw [Option.eq_none_iff_forall_ne_some]
    intro knowledge known
    have lists := (KnowledgeBase.ofProgram?_eq_some known).1
    obtain ⟨_, ⟨procedure, declared, isName, -⟩, -⟩ := TransGen.head'_iff.mp cycle
    refine Program.lists_called?_iff.mp lists name ?_ ⟨name, .refl, ?_⟩
    · exact List.mem_map.mpr ⟨procedure, declared, isName⟩
    · rwa [Program.leads_callGrid]

/-- A text is found to have endless calls if it was read and its calls go round in a circle. -/
theorem Analysis.ofText_eq_endlessCalls_iff {text : String}
    : Analysis.ofText text = .error .endlessCalls
      ↔ ∃ p stop, Program.Parser.program (.start text) = .ok p stop
        ∧ ∃ name, TransGen p.Calls name name := by
  have gives := Program.Parser.gives_program text
  unfold Program.Parser.Gives at gives
  unfold Analysis.ofText
  cases read : Program.Parser.program (.start text) with
  | error failure stop =>
    rw [read] at gives
    simp only [Except.error.injEq, reduceCtorEq, false_and, exists_false, iff_false]
    rintro rfl
    exact gives
  | ok p stop =>
    have known := KnowledgeBase.ofProgram?_eq_none_iff (p := p)
    cases found : KnowledgeBase.ofProgram? p with
    | none => simpa [found] using known.mp found
    | some knowledge => simpa [found] using known

namespace Program.Parser

variable {α : Type}

/-- Whenever the parser succeeds, from whatever state, it has taken a token. -/
def Consumes (m : Parser α) : Prop :=
  ∀ s a s', m s = .ok a s' → ∃ used, used ≠ [] ∧ s.pending = used ++ s'.pending

theorem consumes_of_givesExpr {level : Nat} {m : Parser Expr}
    (gives : ∀ s : ParserState, GivesExpr s.pending level m s)
    : Consumes m := by
  intro s e s' given
  obtain ⟨used, spelled, passes⟩ := (gives s).of_ok given
  exact ⟨used, spelled.ne_nil, passes.pending⟩

theorem consumes_of_givesStmt {counted : Nat} {m : Parser Stmt}
    (gives : ∀ s : ParserState, GivesStmt s.pending counted m s)
    : Consumes m := by
  intro s a s' given
  obtain ⟨used, count, spelled, passes, -⟩ := (gives s).of_ok given
  exact ⟨used, spelled.ne_nil, passes.pending⟩

theorem gives_term (s : ParserState) : GivesExpr s.pending 1 term s := by
  have enough := s.pending_length_le
  exact Gives.of_budget (m := fun fuel => termWith fuel (expressionWithin fuel))
    (gives_termWith (fun _ enough => gives_expressionWithin enough) (by omega))

theorem gives_factor (s : ParserState) : GivesExpr s.pending 2 factor s := by
  have enough := s.pending_length_le
  exact Gives.of_budget (m := fun fuel => factorWith (expressionWithin fuel))
    (gives_factorWith (fun _ enough => gives_expressionWithin enough) (by omega))

section Statements

variable (s : ParserState)

theorem gives_loop : GivesStmt s.pending 1 loop s := by
  have enough := s.pending_length_le
  exact Gives.of_budget (m := fun fuel => loopWith (statementsWithin fuel))
    (gives_loopWith (fun _ => gives_statementsWithin) (by omega) (List.suffix_refl _))

theorem gives_branch : GivesStmt s.pending 1 branch s := by
  have enough := s.pending_length_le
  exact Gives.of_budget (m := fun fuel => branchWith (statementsWithin fuel))
    (gives_branchWith (fun _ => gives_statementsWithin) (by omega) (List.suffix_refl _))

theorem gives_statement : GivesStmt s.pending 0 statement s := by
  have enough := s.pending_length_le
  exact Gives.of_budget (m := fun fuel => statementWith (statementsWithin fuel))
    (gives_statementWith (fun _ => gives_statementsWithin) (by omega) (List.suffix_refl _))

end Statements

theorem consumes_procedure : Consumes procedure := by
  intro s a s' given
  have gives : Gives s.pending procedure s _ := gives_procedure (List.suffix_refl _)
  obtain ⟨used, spelled, passes⟩ := gives.of_ok given
  exact ⟨used, spelled.ne_nil, passes.pending⟩

end Program.Parser

/-- The statements inside a statement have places in the table of statements. -/
theorem Program.statementEntries_inside {p : Program} {e : StatementEntry}
    (member : e ∈ p.statementEntries) {i : Nat} (before : i < e.finish)
    : i < p.statementEntries.length := by
  obtain ⟨⟨line, s⟩, listed, rfl⟩ := List.mem_map.mp member
  obtain ⟨last, finish, ⟨inside, -⟩⟩ := (Program.entry_records listed).finish
  have numbered : ∃ s, (last, s) ∈ p.listing := by
    rcases inside with rfl | path
    · exact ⟨s, listed⟩
    · obtain ⟨_, -, parent⟩ := TransGen.tail'_iff.mp path
      exact parent.listed.2
  have bound := (Program.exists_mem_listing_iff.mp numbered).2
  rw [Program.statementEntries, List.length_map, p.length_listing]
  simp only [finish] at before
  omega

open Program Parser in
/-- How reading a text can end. Besides the outcomes themselves: the tables that are written during
reading and looked up afterwards have what is looked up, for every text, and every rule of the grammar
but that for statement lists takes a token or fails. -/
structure Analysis.Settles (text : String) : Prop where
  outcome : (∃ a, Analysis.ofText text = .ok a) ∨ Analysis.ofText text = .error .rejected
    ∨ (Analysis.ofText text = .error .emptyList ∧ Hollow (tokensIn (ParserState.start text).rest))
    ∨ Analysis.ofText text = .error .endlessCalls
  message : Failure.message .rejected = "Check logs for more info"
  endless : Analysis.ofText text = .error .endlessCalls
    ↔ ∃ p stop, Parser.program (.start text) = .ok p stop ∧ ∃ name, TransGen p.Calls name name
  tables : ∀ pair ∈ [(Ledger.modified, Stmt.ownModified), (Ledger.used, Stmt.ownUsed)],
    pair.1.effect = pair.2
      ∧ Recorder.Tracks Parser.program (Recorder.program pair.1) (.start text) .empty fun p _ p' g =>
          p = p' ∧ Recorder.Holds pair.1 p.numbered g
  places : ∀ p stop, Parser.program (.start text) = .ok p stop → ∀ e ∈ p.statementEntries,
    ∀ i : Nat, e.start ≤ i → i < e.finish → i < p.statementEntries.length
  expressions : ∀ m ∈ [expression, term, factor], Consumes m
  statements : ∀ m ∈ [statement, assignment, call, loop, branch], Consumes m
  procedures : Consumes procedure

/-- Every text whatsoever is settled in one of these ways. -/
theorem Analysis.settles (text : String) : Analysis.Settles text where
  outcome := by
    have gives := Program.Parser.gives_program text
    unfold Program.Parser.Gives at gives
    unfold Analysis.ofText
    cases read : Program.Parser.program (.start text) with
    | error failure stop =>
      rw [read] at gives
      cases failure with
      | rejected => exact .inr (.inl rfl)
      | emptyList => exact .inr (.inr (.inl ⟨rfl, gives⟩))
      | _ => exact gives.elim
    | ok p stop =>
      cases found : KnowledgeBase.ofProgram? p with
      | none => exact .inr (.inr (.inr (by simp [found])))
      | some knowledge => exact .inl ⟨⟨p, stop, knowledge⟩, by simp [found]⟩
  message := rfl
  endless := Analysis.ofText_eq_endlessCalls_iff
  tables := by
    simp only [List.forall_mem_cons, List.not_mem_nil, false_implies, implies_true, and_true]
    exact ⟨⟨Ledger.effect_modified, Program.Recorder.tracks_program Ledger.sound_modified text⟩,
      Ledger.effect_used, Program.Recorder.tracks_program Ledger.sound_used text⟩
  places := fun _ _ _ _ member _ _ before => Program.statementEntries_inside member before
  expressions := by
    simp only [List.forall_mem_cons, List.not_mem_nil, false_implies, implies_true, and_true]
    exact ⟨Program.Parser.consumes_of_givesExpr fun _ => Program.Parser.gives_expression _,
      Program.Parser.consumes_of_givesExpr Program.Parser.gives_term,
      Program.Parser.consumes_of_givesExpr Program.Parser.gives_factor⟩
  statements := by
    simp only [List.forall_mem_cons, List.not_mem_nil, false_implies, implies_true, and_true]
    exact ⟨Program.Parser.consumes_of_givesStmt Program.Parser.gives_statement,
      Program.Parser.consumes_of_givesStmt fun _ => Program.Parser.gives_assignment _,
      Program.Parser.consumes_of_givesStmt fun _ => Program.Parser.gives_call _,
      Program.Parser.consumes_of_givesStmt Program.Parser.gives_loop,
      Program.Parser.consumes_of_givesStmt Program.Parser.gives_branch⟩
  procedures := Program.Parser.consumes_procedure

end ProgramQuery

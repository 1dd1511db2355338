import ProgramQuery.KnowledgeBase
import ProgramQuery.Proofs.Program.Reading

/-! Every name in a program that has been read is spelled like a name, since the tokens of a program
are.
-/

namespace ProgramQuery

open Text

/-- Whether the names that a statement holds outside its statement lists are spelled as names. -/
def Stmt.ownNamed : Stmt → Bool
  | .assign target value => isName target && value.names.all isName
  | .call callee => isName callee
  | .loop condition _ => isName condition
  | .branch condition _ _ => isName condition

/-- All names of a statement are spelled as names, those of the statements inside it included. -/
def Stmt.Named (s : Stmt) : Prop :=
  s.Throughout Stmt.ownNamed

structure Procedure.Named (procedure : Procedure) : Prop where
  name : isName procedure.name = true
  body : ∀ s ∈ procedure.body, s.Named

def Program.Named (p : Program) : Prop :=
  ∀ procedure ∈ p.procedures, procedure.Named

theorem Program.map_starts (line : Nat) (procedures : List Procedure)
    : (Program.starts line procedures).map (·.2) = procedures := by
  induction procedures generalizing line with
  | nil => rfl
  | cons procedure rest ih => rw [Program.starts, List.map_cons, ih]

theorem Program.mem_starts {line : Nat} {procedures : List Procedure} {entry : Nat × Procedure}
    (member : entry ∈ Program.starts line procedures)
    : entry.2 ∈ procedures := by
  rw [← Program.map_starts line procedures]
  exact List.mem_map_of_mem member

theorem Program.exists_mem_starts {procedures : List Procedure} {procedure : Procedure}
    (member : procedure ∈ procedures) (line : Nat)
    : ∃ start, (start, procedure) ∈ Program.starts line procedures := by
  rw [← Program.map_starts line procedures] at member
  obtain ⟨⟨start, _⟩, listed, rfl⟩ := List.mem_map.mp member
  exact ⟨start, listed⟩

variable {p : Program}

/-- A statement is listed if it stands within a statement of some procedure's body. -/
theorem Program.exists_line_iff {t : Stmt}
    : (∃ line, (line, t) ∈ p.listing)
      ↔ ∃ procedure ∈ p.procedures, ∃ s ∈ procedure.body, Stmt.Within t s := by
  simp only [Program.listing, List.mem_flatMap, Prod.exists]
  constructor
  · rintro ⟨line, start, procedure, entry, member⟩
    exact ⟨procedure, Program.mem_starts entry,
      (Stmt.mem_listings_iff_within start procedure.body t).mp ⟨line, member⟩⟩
  · rintro ⟨procedure, member, inside⟩
    obtain ⟨start, entry⟩ := Program.exists_mem_starts member 1
    obtain ⟨line, listed⟩ := (Stmt.mem_listings_iff_within start procedure.body t).mpr inside
    exact ⟨line, start, procedure, entry, listed⟩

theorem Program.Named.ownNamed (named : p.Named) {line : Nat} {s : Stmt}
    (member : (line, s) ∈ p.listing)
    : s.ownNamed = true := by
  obtain ⟨procedure, declared, outer, inBody, within⟩ := Program.exists_line_iff.mp ⟨line, member⟩
  exact (named procedure declared).body outer inBody s within

open Program (Token)

variable {tokens : List Token}

theorem Expr.Spelled.named {level : Nat} {e : Expr}
    (spelled : e.Spelled level tokens) (clear : ∀ t ∈ tokens, t.wellSpelled = true)
    : ∀ x ∈ e.names, isName x = true := by
  induction spelled with
  | @name t kind =>
    intro x member
    obtain rfl := List.mem_singleton.mp member
    simpa [Token.wellSpelled, kind] using clear t (by simp)
  | literal => simp [Expr.names]
  | group _ _ ih => exact ih fun t member => clear t (by simp [member])
  | lift _ ih => exact ih clear
  | binary _ _ _ first second =>
    intro x member
    rcases List.mem_append.mp member with member | member
    · exact first (fun t member => clear t (by simp [member])) x member
    · exact second (fun t member => clear t (by simp [member])) x member

theorem isName_of_kind {t : Token} (spelled : t.wellSpelled = true) (kind : t.kind = .name)
    : isName t.text = true := by
  simpa [Token.wellSpelled, kind] using spelled

mutual

theorem Stmt.Spelled.named {s : Stmt} {tokens : List Token} (spelled : s.Spelled tokens)
    (clear : ∀ t ∈ tokens, t.wellSpelled = true)
    : s.Named := by
  refine Stmt.throughout_iff.mpr ?_
  cases spelled with
  | @assign target _ _ _ _ kinds right =>
    simp only [List.map_cons, List.map_nil, List.cons.injEq] at kinds
    refine ⟨?_, by simp [Stmt.parts]⟩
    simp only [Stmt.ownNamed, Bool.and_eq_true, List.all_eq_true]
    exact ⟨isName_of_kind (clear target (by simp)) kinds.1,
      right.named fun t member => clear t (by simp [member])⟩
  | @call _ callee _ kinds =>
    simp only [List.map_cons, List.map_nil, List.cons.injEq] at kinds
    exact ⟨isName_of_kind (clear callee (by simp)) kinds.2.1, by simp [Stmt.parts]⟩
  | @loop _ condition _ _ _ _ kinds inner =>
    simp only [List.map_cons, List.map_nil, List.cons.injEq] at kinds
    exact ⟨isName_of_kind (clear condition (by simp)) kinds.2.1,
      inner.named fun t member => clear t (by simp [member])⟩
  | @branch _ condition _ _ _ _ _ _ _ _ _ _ kinds first second =>
    simp only [List.map_cons, List.map_nil, List.cons.injEq] at kinds
    refine ⟨isName_of_kind (clear condition (by simp)) kinds.2.1, ?_⟩
    exact List.forall_mem_append.mpr ⟨first.named fun t member => clear t (by simp [member]),
      second.named fun t member => clear t (by simp [member])⟩

theorem Stmt.ListSpelled.named {statements : List Stmt} {tokens : List Token}
    (spelled : Stmt.ListSpelled statements tokens) (clear : ∀ t ∈ tokens, t.wellSpelled = true)
    : ∀ s ∈ statements, s.Named := by
  cases spelled with
  | nil => simp
  | cons first others =>
    exact List.forall_mem_cons.mpr ⟨first.named fun t member => clear t (by simp [member]),
      others.named fun t member => clear t (by simp [member])⟩

end

theorem Program.Sequence.named {procedures : List Procedure}
    (spelled : Program.Sequence procedures tokens) (clear : ∀ t ∈ tokens, t.wellSpelled = true)
    : ∀ procedure ∈ procedures, procedure.Named := by
  induction spelled with
  | nil => simp
  | cons first _ ih =>
    refine List.forall_mem_cons.mpr ⟨?_, ih fun t member => clear t (by simp [member])⟩
    cases first with
    | @mk _ name _ _ _ _ kinds inner =>
      simp only [List.map_cons, List.map_nil, List.cons.injEq] at kinds
      exact ⟨isName_of_kind (clear name (by simp)) kinds.2.1,
        inner.named fun t member => clear t (by simp [member])⟩

/-- What is recorded is what the program's own tables say. -/
structure KnowledgeBase.Describes (knowledge : KnowledgeBase) (p : Program) : Prop where
  variableNames : knowledge.variableNames = p.variableNames
  procedures : knowledge.procedures = p.procedureEntries
  statements : knowledge.statements = p.statementEntries
  uses : p.uses? = some knowledge.uses
  modifies : p.modifies? = some knowledge.modifies
  parent : knowledge.parent = p.parentGrid
  follows : knowledge.follows = p.followsGrid
  calls : knowledge.calls = p.callGrid
  next : knowledge.next = p.nextGrid

theorem KnowledgeBase.describes_of_ofProgram? {knowledge : KnowledgeBase}
    (known : KnowledgeBase.ofProgram? p = some knowledge)
    : knowledge.Describes p := by
  simp only [KnowledgeBase.ofProgram?, Option.bind_eq_bind, Option.bind_eq_some_iff,
    Option.pure_def, Option.some.injEq] at known
  obtain ⟨uses, usesFilled, modifies, modifiesFilled, rfl⟩ := known
  exact ⟨rfl, rfl, rfl, usesFilled, modifiesFilled, rfl, rfl, rfl, rfl⟩

end ProgramQuery

namespace ProgramQuery.Analysis

variable {text : String} {a : Analysis}

/-- An accepted text gives the program that was read and what is recorded of it. -/
theorem ofText_eq_ok (accepted : Analysis.ofText text = .ok a)
    : Program.Parser.program (.start text) = .ok a.program a.stop
      ∧ KnowledgeBase.ofProgram? a.program = some a.knowledge := by
  unfold Analysis.ofText at accepted
  split at accepted
  · cases accepted
  · next read =>
    split at accepted
    · next known =>
      cases accepted
      exact ⟨read, known⟩
    · cases accepted

theorem describes (accepted : Analysis.ofText text = .ok a)
    : a.knowledge.Describes a.program :=
  KnowledgeBase.describes_of_ofProgram? (ofText_eq_ok accepted).2

/-- The tokens of an accepted text are those of its procedures and then some that start no further
procedure. -/
theorem tokens_of_accepted (accepted : Analysis.ofText text = .ok a)
    : ∃ used, Program.Sequence a.program.procedures used
      ∧ Program.tokensIn (Program.ParserState.start text).rest = used ++ a.stop.pending
      ∧ a.stop.line = a.program.size
      ∧ ∀ t ∈ a.stop.pending.head?, t.kind ≠ .procedureWord := by
  have given := Program.Parser.gives_program text
  rwa [Program.Parser.Gives, (ofText_eq_ok accepted).1] at given

/-- All names in an accepted program are spelled as names. -/
theorem named (accepted : Analysis.ofText text = .ok a)
    : a.program.Named := by
  obtain ⟨used, spelled, tokens, -⟩ := tokens_of_accepted accepted
  exact spelled.named fun t member =>
    Program.wellSpelled_of_mem_tokensIn (tokens ▸ List.mem_append_left _ member)

end ProgramQuery.Analysis

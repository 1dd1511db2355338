import ProgramQuery.Proofs.Program.Outcomes
import ProgramQuery.Proofs.Program.RoundTrip

/-! What stands behind the last procedure of a program. Reading stops in front of the first token that
starts no procedure, and nothing asks whether the text ends there.
-/

namespace ProgramQuery

open Program Text

/-- Tokens written one after the other, with any white space in front of each. -/
inductive Program.Strung : List Token → List Char → Prop
  | nil : Strung [] []
  | cons {t : Token} {more : List Token} {gap rest : List Char} (blank : ∀ c ∈ gap, isBlank c)
    (strung : Strung more rest)
    : Strung (t :: more) (gap ++ (t.text.toList ++ rest))

/-- A text can be cut behind any of its tokens. -/
theorem Program.exists_cut {used more : List Token} {cs : List Char}
    (tokens : tokensIn cs = used ++ more)
    : ∃ front leftover, cs = front ++ leftover ∧ Strung used front ∧ tokensIn leftover = more := by
  induction used generalizing cs with
  | nil => exact ⟨[], cs, rfl, .nil, tokens⟩
  | cons t used ih =>
    cases found : Token.scan cs with
    | none =>
      rw [tokensIn_of_scan_none found] at tokens
      cases tokens
    | some result =>
      obtain ⟨t', n, rest⟩ := result
      rw [tokensIn_of_scan found, List.cons_append, List.cons.injEq] at tokens
      obtain ⟨rfl, tokens⟩ := tokens
      obtain ⟨front, leftover, rfl, strung, left⟩ := ih tokens
      have blank : ∀ c ∈ cs.takeWhile isBlank, isBlank c := fun c => List.mem_takeWhile_imp
      refine ⟨_, leftover, ?_, .cons blank strung, left⟩
      rw [List.append_assoc, List.append_assoc]
      exact (Token.scan_split found).2

/-- A text was read up to some leftover of it: the text in front is made of the procedures of the
program, and the leftover does not start with another one. -/
structure Analysis.Leaves (a : Analysis) (text : String) (leftover : List Char) : Prop where
  front : ∃ used front, text.toList.filter (· != '\n') = front ++ leftover ∧ Strung used front
    ∧ Sequence a.program.procedures used
  stop : ∀ t ∈ (tokensIn leftover).head?, t.kind ≠ .procedureWord

theorem Analysis.exists_leaves {text : String} {a : Analysis} (accepted : Analysis.ofText text = .ok a)
    : ∃ leftover, a.Leaves text leftover := by
  obtain ⟨used, procedures, tokens, -, stop⟩ := Analysis.tokens_of_accepted accepted
  obtain ⟨front, leftover, split, strung, left⟩ := exists_cut tokens
  exact ⟨leftover, ⟨used, front, split, strung, procedures⟩, left ▸ stop⟩

/-- A printed program is accepted with any tokens behind it that start no procedure. -/
theorem Analysis.ofText_of_laid_before {p : Program} {more : List Token} {text : String}
    (clear : ∀ t ∈ p.tokens ++ more, t.unmistakable = true)
    (filled : ∀ procedure ∈ p.procedures, ∀ s ∈ procedure.body, s.Throughout Stmt.filled)
    (acyclic : ∀ name, ¬ Relation.TransGen p.Calls name name)
    (laid : Laid (p.tokens ++ more) text.toList) (stop : ∀ t ∈ more.head?, t.kind ≠ .procedureWord)
    : ∃ a, Analysis.ofText text = .ok a ∧ a.program = p := by
  obtain ⟨stop, read⟩ := Parser.program_of_laid_before clear laid filled stop
  cases known : KnowledgeBase.ofProgram? p with
  | none =>
    obtain ⟨name, cycle⟩ := KnowledgeBase.ofProgram?_eq_none_iff.mp known
    exact absurd cycle (acyclic name)
  | some knowledge => exact ⟨⟨p, stop, knowledge⟩, by simp only [Analysis.ofText, read, known], rfl⟩

end ProgramQuery

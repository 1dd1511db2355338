import ProgramQuery.Proofs.Program.Names
import ProgramQuery.Proofs.Grid

/-! The table of next statements is the control-flow graph. The graph is defined by rules over the
shape of a program; the table is gathered from separate lists of steps.
-/

namespace ProgramQuery

open Text

mutual

/-- Control leaves the statement with the first number at the second number. A conditional is left
from its branches and every other statement from its own line. -/
inductive Stmt.Exit : Nat → Stmt → Nat → Prop
  | assign {line : Nat} {target : String} {value : Expr} : Stmt.Exit line (.assign target value) line
  | call {line : Nat} {callee : String} : Stmt.Exit line (.call callee) line
  | loop {line : Nat} {condition : String} {body : List Stmt}
    : Stmt.Exit line (.loop condition body) line
  | fromThen {line exit : Nat} {condition : String} {thenBody elseBody : List Stmt}
    (last : Stmt.ListExit (line + 1) thenBody exit)
    : Stmt.Exit line (.branch condition thenBody elseBody) exit
  | fromElse {line exit : Nat} {condition : String} {thenBody elseBody : List Stmt}
    (last : Stmt.ListExit (line + 1 + Stmt.sizes thenBody) elseBody exit)
    : Stmt.Exit line (.branch condition thenBody elseBody) exit

/-- A list that starts at the first number is left from its last statement. -/
inductive Stmt.ListExit : Nat → List Stmt → Nat → Prop
  | last {line exit : Nat} {s : Stmt} (leaves : Stmt.Exit line s exit) : Stmt.ListExit line [s] exit
  | later {line exit : Nat} {s s' : Stmt} {rest : List Stmt}
    (leaves : Stmt.ListExit (line + s.size) (s' :: rest) exit)
    : Stmt.ListExit line (s :: s' :: rest) exit

end

mutual

/-- Inside the statement with the first number, control can go from the second number to the third. -/
inductive Stmt.Step : Nat → Stmt → Nat → Nat → Prop
  | enterLoop {line : Nat} {condition : String} {first : Stmt} {rest : List Stmt}
    : Stmt.Step line (.loop condition (first :: rest)) line (line + 1)
  | repeatLoop {line exit : Nat} {condition : String} {body : List Stmt}
    (leaves : Stmt.ListExit (line + 1) body exit)
    : Stmt.Step line (.loop condition body) exit line
  | inLoop {line before after : Nat} {condition : String} {body : List Stmt}
    (step : Stmt.ListStep (line + 1) body before after)
    : Stmt.Step line (.loop condition body) before after
  | enterThen {line : Nat} {condition : String} {first : Stmt} {rest elseBody : List Stmt}
    : Stmt.Step line (.branch condition (first :: rest) elseBody) line (line + 1)
  | enterElse {line : Nat} {condition : String} {first : Stmt} {thenBody rest : List Stmt}
    : Stmt.Step line (.branch condition thenBody (first :: rest)) line
        (line + 1 + Stmt.sizes thenBody)
  | inThen {line before after : Nat} {condition : String} {thenBody elseBody : List Stmt}
    (step : Stmt.ListStep (line + 1) thenBody before after)
    : Stmt.Step line (.branch condition thenBody elseBody) before after
  | inElse {line before after : Nat} {condition : String} {thenBody elseBody : List Stmt}
    (step : Stmt.ListStep (line + 1 + Stmt.sizes thenBody) elseBody before after)
    : Stmt.Step line (.branch condition thenBody elseBody) before after

/-- Control goes from each exit of a statement to the statement after it in the same list. -/
inductive Stmt.ListStep : Nat → List Stmt → Nat → Nat → Prop
  | onward {line exit : Nat} {s s' : Stmt} {rest : List Stmt} (leaves : Stmt.Exit line s exit)
    : Stmt.ListStep line (s :: s' :: rest) exit (line + s.size)
  | inside {line before after : Nat} {s : Stmt} {rest : List Stmt}
    (step : Stmt.Step line s before after)
    : Stmt.ListStep line (s :: rest) before after
  | later {line before after : Nat} {s : Stmt} {rest : List Stmt}
    (step : Stmt.ListStep (line + s.size) rest before after)
    : Stmt.ListStep line (s :: rest) before after

end

/-- Control can go from one statement to another in the body of some procedure. -/
def Program.Step (p : Program) (before after : Nat) : Prop :=
  ∃ start procedure, (start, procedure) ∈ p.numbered
    ∧ Stmt.ListStep start procedure.body before after

mutual

theorem Stmt.exit_iff (line : Nat) (s : Stmt) (exit : Nat)
    : Stmt.Exit line s exit ↔ exit ∈ s.exits line := by
  cases s with
  | assign target value =>
    rw [Stmt.exits, List.mem_singleton]
    exact ⟨fun | .assign => rfl, fun | rfl => .assign⟩
  | call callee =>
    rw [Stmt.exits, List.mem_singleton]
    exact ⟨fun | .call => rfl, fun | rfl => .call⟩
  | loop condition body =>
    rw [Stmt.exits, List.mem_singleton]
    exact ⟨fun | .loop => rfl, fun | rfl => .loop⟩
  | branch condition thenBody elseBody =>
    rw [Stmt.exits, List.mem_append, ← Stmt.listExit_iff, ← Stmt.listExit_iff]
    constructor
    · rintro (_ | _ | _ | last | last)
      · exact Or.inl last
      · exact Or.inr last
    · rintro (last | last)
      · exact .fromThen last
      · exact .fromElse last

theorem Stmt.listExit_iff (line : Nat) (statements : List Stmt) (exit : Nat)
    : Stmt.ListExit line statements exit ↔ exit ∈ Stmt.listExits line statements := by
  match statements with
  | [] => exact ⟨nofun, nofun⟩
  | [s] =>
    rw [Stmt.listExits, ← Stmt.exit_iff]
    exact ⟨fun | .last leaves => leaves, .last⟩
  | s :: s' :: rest =>
    rw [Stmt.listExits, ← Stmt.listExit_iff]
    exact ⟨fun | .later leaves => leaves, .later⟩

end

variable {line : Nat} {condition : String} {body : List Stmt}

theorem Stmt.step_loop_iff {before after : Nat}
    : Stmt.Step line (.loop condition body) before after
      ↔ (body ≠ [] ∧ before = line ∧ after = line + 1)
        ∨ (Stmt.ListExit (line + 1) body before ∧ after = line)
        ∨ Stmt.ListStep (line + 1) body before after := by
  constructor
  · rintro (_ | leaves | step)
    · exact Or.inl ⟨by simp, rfl, rfl⟩
    · exact Or.inr (Or.inl ⟨leaves, rfl⟩)
    · exact Or.inr (Or.inr step)
  · rintro (⟨filled, rfl, rfl⟩ | ⟨leaves, rfl⟩ | step)
    · obtain ⟨first, rest, rfl⟩ := List.ne_nil_iff_exists_cons.mp filled
      exact .enterLoop
    · exact .repeatLoop leaves
    · exact .inLoop step

variable {thenBody elseBody : List Stmt}

theorem Stmt.step_branch_iff {before after : Nat}
    : Stmt.Step line (.branch condition thenBody elseBody) before after
      ↔ (thenBody ≠ [] ∧ before = line ∧ after = line + 1)
        ∨ (elseBody ≠ [] ∧ before = line ∧ after = line + 1 + Stmt.sizes thenBody)
        ∨ Stmt.ListStep (line + 1) thenBody before after
        ∨ Stmt.ListStep (line + 1 + Stmt.sizes thenBody) elseBody before after := by
  constructor
  · rintro (_ | _ | _ | _ | _ | step | step)
    · exact Or.inl ⟨by simp, rfl, rfl⟩
    · exact Or.inr (Or.inl ⟨by simp, rfl, rfl⟩)
    · exact Or.inr (Or.inr (Or.inl step))
    · exact Or.inr (Or.inr (Or.inr step))
  · rintro (⟨filled, rfl, rfl⟩ | ⟨filled, rfl, rfl⟩ | step | step)
    · obtain ⟨first, rest, rfl⟩ := List.ne_nil_iff_exists_cons.mp filled
      exact .enterThen
    · obtain ⟨first, rest, rfl⟩ := List.ne_nil_iff_exists_cons.mp filled
      exact .enterElse
    · exact .inThen step
    · exact .inElse step

theorem Stmt.listStep_cons_iff {before after : Nat} {s : Stmt} {rest : List Stmt}
    : Stmt.ListStep line (s :: rest) before after
      ↔ (rest ≠ [] ∧ Stmt.Exit line s before ∧ after = line + s.size)
        ∨ Stmt.Step line s before after
        ∨ Stmt.ListStep (line + s.size) rest before after := by
  constructor
  · rintro (leaves | step | step)
    · exact Or.inl ⟨by simp, leaves, rfl⟩
    · exact Or.inr (Or.inl step)
    · exact Or.inr (Or.inr step)
  · rintro (⟨more, leaves, rfl⟩ | step | step)
    · obtain ⟨next, rest, rfl⟩ := List.ne_nil_iff_exists_cons.mp more
      exact .onward leaves
    · exact .inside step
    · exact .later step

theorem Stmt.mem_sequenceSteps_cons {before after : Nat} {s : Stmt} {rest : List Stmt}
    : (before, after) ∈ Stmt.sequenceSteps line (s :: rest)
      ↔ (rest ≠ [] ∧ Stmt.Exit line s before ∧ after = line + s.size)
        ∨ (before, after) ∈ Stmt.sequenceSteps (line + s.size) rest := by
  cases rest with
  | nil => simp [Stmt.sequenceSteps]
  | cons next rest => simp [Stmt.sequenceSteps, Stmt.exit_iff, eq_comm]

theorem Stmt.mem_innerSteps_loop {before after : Nat}
    : (before, after) ∈ (Stmt.loop condition body).innerSteps line
      ↔ (before = line ∧ after = line + 1)
        ∨ (Stmt.ListExit (line + 1) body before ∧ after = line)
        ∨ (before, after) ∈ Stmt.sequenceSteps (line + 1) body := by
  simp [Stmt.innerSteps, Stmt.listExit_iff, eq_comm, or_comm]

theorem Stmt.mem_innerSteps_branch {before after : Nat}
    : (before, after) ∈ (Stmt.branch condition thenBody elseBody).innerSteps line
      ↔ (before = line ∧ after = line + 1)
        ∨ (before = line ∧ after = line + 1 + Stmt.sizes thenBody)
        ∨ (before, after) ∈ Stmt.sequenceSteps (line + 1) thenBody
        ∨ (before, after) ∈ Stmt.sequenceSteps (line + 1 + Stmt.sizes thenBody) elseBody := by
  simp [Stmt.innerSteps]

mutual

/-- The steps inside a statement are those listed for it and for the statements inside it, by
recursion on the statement. Only its shape is split here; the rest is rearranging alternatives. -/
theorem Stmt.step_iff (line : Nat) (s : Stmt) (before after : Nat)
    (filled : ∀ entry ∈ s.listing line, entry.2.filled = true)
    : Stmt.Step line s before after
      ↔ ∃ entry ∈ s.listing line, (before, after) ∈ entry.2.innerSteps entry.1 := by
  cases s with
  | assign target value => simpa [Stmt.listing, Stmt.innerSteps] using nofun
  | call callee => simpa [Stmt.listing, Stmt.innerSteps] using nofun
  | loop condition body =>
    simp only [Stmt.listing, List.forall_mem_cons, Stmt.filled, Bool.not_eq_true',
      List.isEmpty_eq_false_iff] at filled
    rw [Stmt.step_loop_iff, Stmt.listStep_iff (line + 1) body before after filled.2, Stmt.listing,
      List.exists_mem_cons_iff, Stmt.mem_innerSteps_loop, and_iff_right filled.1]
    simp only [or_assoc]
  | branch condition thenBody elseBody =>
    simp only [Stmt.listing, List.forall_mem_cons, List.forall_mem_append, Stmt.filled,
      Bool.and_eq_true, Bool.not_eq_true', List.isEmpty_eq_false_iff] at filled
    obtain ⟨⟨thenFilled, elseFilled⟩, inThen, inElse⟩ := filled
    rw [Stmt.step_branch_iff, Stmt.listStep_iff (line + 1) thenBody before after inThen,
      Stmt.listStep_iff (line + 1 + Stmt.sizes thenBody) elseBody before after inElse,
      Stmt.listing, List.exists_mem_cons_iff, Stmt.mem_innerSteps_branch,
      and_iff_right thenFilled, and_iff_right elseFilled]
    simp only [List.mem_append, or_and_right, exists_or, or_assoc, or_left_comm]

theorem Stmt.listStep_iff (line : Nat) (statements : List Stmt) (before after : Nat)
    (filled : ∀ entry ∈ Stmt.listings line statements, entry.2.filled = true)
    : Stmt.ListStep line statements before after
      ↔ (before, after) ∈ Stmt.sequenceSteps line statements
        ∨ ∃ entry ∈ Stmt.listings line statements,
            (before, after) ∈ entry.2.innerSteps entry.1 := by
  cases statements with
  | nil => simpa [Stmt.listings, Stmt.sequenceSteps] using nofun
  | cons s rest =>
    simp only [Stmt.listings, List.forall_mem_append] at filled
    rw [Stmt.listStep_cons_iff, Stmt.mem_sequenceSteps_cons,
      Stmt.step_iff line s before after filled.1,
      Stmt.listStep_iff (line + s.size) rest before after filled.2, Stmt.listings]
    simp only [List.mem_append, or_and_right, exists_or, or_assoc, or_left_comm]

end

variable {p : Program}

/-- The steps of a program whose loops and branches are not empty are those listed for it. -/
theorem Program.step_iff (filled : ∀ entry ∈ p.listing, entry.2.filled = true)
    {before after : Nat}
    : p.Step before after ↔ (before, after) ∈ p.steps := by
  have inBody : ∀ entry ∈ p.numbered, ∀ inner ∈ Stmt.listings entry.1 entry.2.body,
      inner.2.filled = true := fun entry member inner listed =>
    filled inner (List.mem_flatMap.mpr ⟨entry, member, listed⟩)
  simp only [Program.Step, Program.steps, Program.listing, List.flatMap_assoc, List.mem_append,
    List.mem_flatMap, ← exists_or, ← and_or_left, Prod.exists]
  refine exists_congr fun start => exists_congr fun procedure => and_congr_right fun member => ?_
  rw [Stmt.listStep_iff start procedure.body before after (inBody _ member)]
  simp only [Prod.exists]

mutual

theorem Stmt.Exit.bounds {line : Nat} {s : Stmt} {exit : Nat}
    : Stmt.Exit line s exit → line ≤ exit ∧ exit < line + s.size
  | .assign => by simp [Stmt.size]
  | .call => by simp [Stmt.size]
  | .loop => by simp only [Stmt.size]; omega
  | .fromThen last => by
      have inside := last.bounds
      simp only [Stmt.size]
      omega
  | .fromElse last => by
      have inside := last.bounds
      simp only [Stmt.size]
      omega

theorem Stmt.ListExit.bounds {line : Nat} {statements : List Stmt} {exit : Nat}
    : Stmt.ListExit line statements exit → line ≤ exit ∧ exit < line + Stmt.sizes statements
  | .last leaves => by
      have inside := leaves.bounds
      simp only [Stmt.sizes]
      omega
  | .later leaves => by
      have inside := leaves.bounds
      simp only [Stmt.sizes] at inside ⊢
      omega

end

/-- Both ends of a step have numbers in a given range. -/
def Spans (start size before after : Nat) : Prop :=
  (start ≤ before ∧ before < start + size) ∧ start ≤ after ∧ after < start + size

mutual

theorem Stmt.Step.spans {line : Nat} {s : Stmt} {before after : Nat}
    : Stmt.Step line s before after → Spans line s.size before after
  | @Stmt.Step.enterLoop _ _ first rest => by
      have := first.size_pos
      simp only [Spans, Stmt.size, Stmt.sizes]
      omega
  | .repeatLoop leaves => by
      have inside := leaves.bounds
      simp only [Spans, Stmt.size]
      omega
  | .inLoop step => by
      have inside := step.spans
      simp only [Spans, Stmt.size] at inside ⊢
      omega
  | @Stmt.Step.enterThen _ _ first rest _ => by
      have := first.size_pos
      simp only [Spans, Stmt.size, Stmt.sizes]
      omega
  | @Stmt.Step.enterElse _ _ first _ rest => by
      have := first.size_pos
      simp only [Spans, Stmt.size, Stmt.sizes]
      omega
  | .inThen step => by
      have inside := step.spans
      simp only [Spans, Stmt.size] at inside ⊢
      omega
  | .inElse step => by
      have inside := step.spans
      simp only [Spans, Stmt.size] at inside ⊢
      omega

theorem Stmt.ListStep.spans {line : Nat} {statements : List Stmt} {before after : Nat}
    : Stmt.ListStep line statements before after
      → Spans line (Stmt.sizes statements) before after
  | @Stmt.ListStep.onward _ _ _ next _ leaves => by
      have inside := leaves.bounds
      have := next.size_pos
      simp only [Spans, Stmt.sizes]
      omega
  | .inside step => by
      have inside := step.spans
      simp only [Spans, Stmt.sizes] at inside ⊢
      omega
  | .later step => by
      have inside := step.spans
      simp only [Spans, Stmt.sizes] at inside ⊢
      omega

end

/-- The table has a cell for each step, under the numeral of the later statement. -/
theorem Program.mem_columnsOf_nextGrid {row column : String}
    : column ∈ p.nextGrid.columnsOf row
      ↔ ∃ before after, (before, after) ∈ p.steps ∧ row = showInt after ∧ column = showInt before := by
  simp only [Program.nextGrid, Grid.ofLines, Grid.mem_columnsOf_ofPairs, List.mem_map, Prod.exists,
    Prod.mk.injEq]
  constructor
  · rintro ⟨_, _, ⟨before, after, step, rfl, rfl⟩, rfl, rfl⟩
    exact ⟨before, after, step, rfl, rfl⟩
  · rintro ⟨before, after, step, rfl, rfl⟩
    exact ⟨after, before, ⟨before, after, step, rfl, rfl⟩, rfl, rfl⟩

end ProgramQuery

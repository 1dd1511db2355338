import ProgramQuery.Proofs.Evaluation.Answering
import ProgramQuery.Session

/-! The statements that can come after themselves, as a query asks for them. The synonym stands on both
sides of the relation, and what is left to it on either side is put together without asking whether the
two sides belong together. So the reply lists what has a statement before it and one after it.
-/

open Relation (TransGen)

namespace ProgramQuery

open Text ProgramQuery.Relation Evaluation

/-- The query for the statements that can come after themselves. -/
def selfReaching : String := "stmt s; Select s such that Next*(s,s)"

namespace Evaluation

def selfSheet : Sheet :=
  Sheet.declare { Sheet.start with selected := ("STMT", "s") } "s" (.text "STMT")

/-- The steps in which a query with one condition between two synonyms is worked out, once the sides of
the relation are found. -/
def pairSteps (title first second : String) (sides : Asked (List Entity × List Entity))
    (follow follow' : String → EvalM Unit)
    : EvalM String := do
  (do
    (do
      (do
        let (lefts, rights) ← ask sides
        narrowTo title first lefts
        narrowTo title second rights)
      followUp title first follow
      followUp title second follow')
    pure ⟨⟩)
  ask ((← sheet).answer (← read).knowledge)

variable {subject : Subject} {lefts rights : List Entity} {follow follow' : String → EvalM Unit}
  {text : String}

theorem Subject.reply_of_reading {reading : Query.Reading}
    (read : Query.Reading.ofText subject.knowledge.scope text = .ok reading)
    : subject.reply text
      = match query reading.tree subject .start with
        | .ok answer _ => answer
        | .error _ s => if s.sheet.selected.1 = Sheet.truthRow then "false" else "none" := by
  unfold Subject.reply Subject.evaluate
  rw [read]
  simp only [bind, Except.bind]
  cases query reading.tree subject .start <;> rfl

theorem Subject.reply_of_ends {reading : Query.Reading} {steps : EvalM String}
    {s : State} {good : String → Prop}
    (read : Query.Reading.ofText subject.knowledge.scope text = .ok reading)
    (runs : query reading.tree subject .start = steps subject s)
    (ends : Ends subject False s steps fun answer _ => good answer)
    : good (subject.reply text) := by
  rw [Subject.reply_of_reading read, runs]
  unfold Ends at ends
  cases ended : steps subject s <;> rw [ended] at ends
  · exact ends
  · exact ends.elim

theorem exists_selfSteps
    : ∃ reading, Query.Reading.ofText subject.knowledge.scope selfReaching = .ok reading
      ∧ ∃ follow follow', query reading.tree subject .start
        = pairSteps "NEXTT_s_s" "s" "s" ((NextStar.modes subject.knowledge).openOpen "STMT" "STMT") follow
            follow' subject ⟨selfSheet, []⟩ := by
  obtain ⟨reading, read, tree⟩ : ∃ reading,
      Query.Reading.ofText subject.knowledge.scope selfReaching = .ok reading
      ∧ reading.tree = .node "QUERY" "query" 0 [.node "RESULT" "" 0 [.leaf "STMT" "s"],
        .node "SUCH_THAT" "" 0 [.node "NEXTT" "" 0 [.leaf "STMT" "s", .leaf "STMT" "s"]]] :=
    ⟨_, rfl, rfl⟩
  exact ⟨reading, read, tree ▸ ⟨_, _, rfl⟩⟩

/-- Both sides are recorded, and then there is nothing to follow up. -/
theorem ends_pairSteps {s : Sheet} {title first second : String} (row : first ∈ s.cells.rowNames)
    (row' : second ∈ s.cells.rowNames) (truth : Sheet.truthRow ∈ s.cells.rowNames)
    (synonyms : first ≠ Sheet.fixedRow ∧ second ≠ Sheet.fixedRow) (left : lefts ≠ [])
    (right : rights ≠ [])
    (single : ∀ values values', ∀ x ∈ [first, second],
      ((s.narrowed title first values).narrowed title second values').columns x
        = [Sheet.typeColumn, title, Sheet.finalColumn])
    (answers : ((s.narrowed title first (.ofList lefts)).narrowed title second
      (.ofList rights)).answer subject.knowledge = .ok text)
    : Ends subject False ⟨s, []⟩ (pairSteps title first second (.ok (lefts, rights)) follow follow')
        fun answer _ => answer = text := by
  have idle {x : String} (member : x ∈ [first, second]) {follow : String → EvalM Unit}
      : let both := (s.narrowed title first (.ofList lefts)).narrowed title second (.ofList rights)
        Ends subject False ⟨both, []⟩ (followUp title x follow) fun _ s' => s' = ⟨both, []⟩ := by
    intro both
    refine .bind (.get ?_)
    dsimp only
    rw [single _ _ x member]
    simp only [List.filter, isCondition, otherColumns, List.contains_cons, BEq.rfl, Bool.true_or,
      Bool.or_true, Bool.not_true, Bool.false_and, bne_self_eq_false, Bool.and_false]
    exact .pure rfl
  unfold pairSteps
  refine .bind (.bind (.bind (.bind (.ask (.ok (.bind ?_))))))
  refine (ends_narrowTo row synonyms.1 left).mono ?_
  rintro - _ ⟨-, rfl⟩
  refine (ends_narrowTo ((Sheet.mem_rowNames_narrowed row truth).mpr row') synonyms.2 right).mono ?_
  rintro - _ ⟨-, rfl⟩
  refine .bind ((idle (by simp)).mono ?_)
  rintro - _ rfl
  refine (idle (by simp)).mono ?_
  rintro - _ rfl
  refine .pure (.bind (.sheet (.bind (.read (.ask ?_)))))
  rw [answers]
  exact .ok rfl

/-- Both sides are recorded for the same synonym. -/
theorem ends_selfSteps (left : lefts ≠ []) (right : rights ≠ [])
    : Ends subject False ⟨selfSheet, []⟩
        (pairSteps "NEXTT_s_s" "s" "s" (.ok (lefts, rights)) follow follow')
        fun answer _ => Lists answer fun e => e ∈ lefts ∧ e ∈ rights := by
  refine (ends_pairSteps (by decide) (by decide) (by decide) (by decide) left right ?_ rfl).mono ?_
  · rintro values values' x member
    obtain rfl : x = "s" := by simpa using member
    rfl
  rintro _ _ rfl
  -- the outcome and the values left are both sets that the second outcome is held against
  let left : EntitySet := ((EntitySet.ofList rights).inter (.ofList rights)).inter
    ((EntitySet.ofList lefts).inter (.ofList lefts))
  refine ⟨left.members, rfl, ((nodup_eraseDups rights).filter _).filter _, fun e => ?_⟩
  simp [left, Sheet.mem_inter, EntitySet.ofList, and_comm]

end Evaluation

open Evaluation

/-- The reply lists the statements with one before them and one after them, even if it lists none; only
if there are no steps at all it says so. It is right where all of these can come after themselves.
-/
theorem Analysis.reply_selfReaching [Order] {text file : String} {a : Analysis}
    (accepted : Analysis.ofText text = .ok a) (filled : a.program.Filled) (short : a.program.Short)
    : let reply := (a.subject file).reply selfReaching
      let within (n : Nat) : Prop := (∃ m, a.program.Step m n) ∧ ∃ m, a.program.Step n m
      ((∀ m n, ¬ a.program.Step m n) → reply = "none")
      ∧ ((∃ m n, a.program.Step m n) → Lists reply fun e => ∃ n : Nat, within n ∧ e = .line n)
      ∧ ((∃ m n, a.program.Step m n) → (∀ n, within n → TransGen a.program.Step n n) →
        Lists reply fun e => ∃ n : Nat, TransGen a.program.Step n n ∧ e = .line n) := by
  intro reply within
  have table := (Analysis.describes accepted).next_tabulates short filled
  obtain ⟨rows, isRows, afters⟩ := table.rowNumbers_spec
  obtain ⟨columns, isColumns, befores⟩ := table.columnNumbers_spec
  have sides : (NextStar.modes (a.subject file).knowledge).openOpen "STMT" "STMT"
      = .ok (lines columns, lines rows) := by
    change (do return (lines (← a.knowledge.next.columnNumbers), lines (← a.knowledge.next.rowNumbers))
      : Asked _) = _
    rw [isRows, isColumns]
    rfl
  obtain ⟨reading, read, follow, follow', steps⟩ := @exists_selfSteps (a.subject file)
  rw [sides] at steps
  have replies : reply = _ := Subject.reply_of_reading read
  rw [steps] at replies
  have lists (step : ∃ m n, a.program.Step m n)
      : Lists reply fun e => ∃ n : Nat, within n ∧ e = .line n := by
    obtain ⟨m, n, step⟩ := step
    have ends := @ends_selfSteps (a.subject file) (lines columns) (lines rows) follow follow'
      (List.ne_nil_of_mem (befores.mem_lines.mpr ⟨m, ⟨n, step⟩, rfl⟩))
      (List.ne_nil_of_mem (afters.mem_lines.mpr ⟨n, ⟨m, step⟩, rfl⟩))
    refine (Subject.reply_of_ends read steps ends).congr fun e => ?_
    rw [befores.mem_lines, afters.mem_lines]
    constructor
    · rintro ⟨⟨n, after, rfl⟩, n', before, same⟩
      obtain rfl : n = n' := by simpa using same
      exact ⟨n, ⟨before, after⟩, rfl⟩
    · rintro ⟨n, ⟨before, after⟩, rfl⟩
      exact ⟨⟨n, after, rfl⟩, n, before, rfl⟩
  refine ⟨fun none => ?_, lists, fun step closed => (lists step).congr fun e => ?_⟩
  · have empty {ns : List Int} {property : Nat → Prop} (all : Enumerates ns property)
        (never : ∀ n, ¬ property n) : ns = [] :=
      List.eq_nil_iff_forall_not_mem.mpr fun n member => by
        obtain ⟨line, holds, -⟩ := (all n).mp member
        exact never line holds
    rw [replies, empty befores (by simpa using none),
      empty afters (by simpa using fun n m => none m n)]
    rfl
  · refine exists_congr fun n => and_congr_left fun _ => ⟨closed n, fun path => ?_⟩
    exact ⟨transGen_right_iff.mp ⟨n, path⟩, transGen_left_iff.mp ⟨n, path⟩⟩

/-- In a loop every statement is listed, and rightly so. -/
theorem Analysis.reply_selfReaching_in_loop
    : ∃ a, Analysis.ofText "procedure p \x7b while i \x7b x = 1; \x7d \x7d" = .ok a
      ∧ Lists "2, 1" fun e => ∃ n : Nat,
        ((∃ m, a.program.Step m n) ∧ ∃ m, a.program.Step n m) ∧ e = .line n := by
  refine exists_ok_of (fun a => a.program.Filled ∧ a.program.Short
      ∧ a.knowledge.next.markedAt (2 : Nat) (1 : Nat) = true
      ∧ (a.subject "code.txt").reply selfReaching = "2, 1") (by decide +kernel) ?_
  rintro a accepted ⟨filled, short, marked, replies⟩
  have table := (Analysis.describes accepted).next_tabulates short filled
  have lists := (@Analysis.reply_selfReaching .asGiven _ "code.txt" a accepted filled short).2.1
    ⟨1, 2, table.markedAt_iff.mp marked⟩
  rwa [replies] at lists

/-- The second of three statements is listed although nothing comes back to it. -/
theorem Analysis.reply_selfReaching_in_sequence
    : ∃ a, Analysis.ofText "procedure p \x7b x = 1; y = 2; z = 3; \x7d" = .ok a
      ∧ a.program.Filled ∧ a.program.Short
      ∧ (a.subject "code.txt").reply selfReaching = "2" ∧ ¬ TransGen a.program.Step 2 2 := by
  refine exists_ok_of (fun a => a.program.Filled ∧ a.program.Short
      ∧ 2 ∉ NextStar.successors a.knowledge (2 : Nat)
      ∧ (a.subject "code.txt").reply selfReaching = "2") (by decide +kernel) ?_
  rintro a accepted ⟨filled, short, none, replies⟩
  have table := (Analysis.describes accepted).next_tabulates short filled
  exact ⟨filled, short, replies, fun path => none ((table.successors_spec 2).mem_iff.mpr path)⟩

end ProgramQuery

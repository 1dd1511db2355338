import ProgramQuery.Proofs.Evaluation.Answering
import ProgramQuery.Proofs.Evaluation.Cycles
import ProgramQuery.Session

/-! A query is answered with exactly the values of the selected synonym that are part of a choice that
meets all conditions, and it fails exactly if there is no such choice.
-/

namespace ProgramQuery

open Text ProgramQuery.Relation Evaluation

variable {p : Program} {knowledge : KnowledgeBase} {kinds : String → Kind}
  {conditions kept all : List Condition} {c : Condition} {s : State} {subject : Subject}

namespace Evaluation

/-- On the sheet at the start, no condition is done. -/
theorem Settled.start (selected : String × String)
    : Settled p kinds all [] ⟨{ Sheet.start with selected }, []⟩ := by
  have blank (x column : String) : Sheet.start.cells.cell? x column = none := Sheet.cell?_start
  have left (x : String) (e : Entity)
      : Sheet.Left { Sheet.start with selected } p kinds x e ↔ p.Fits (kinds x) e := by
    simp [Sheet.Left, Sheet.final?, blank]
  have sound : Sheet.start.Sound p kinds := .start
  exact {
    held := {
      inv := {
        sound := ⟨sound.orderly, sound.truth, sound.fixed, sound.types, sound.sets, sound.fits⟩
        rows := fun y row => by
          have row : y ∈ [Sheet.truthRow, Sheet.fixedRow] := row
          rcases List.mem_pair.mp row with rfl | rfl
          · exact .inl rfl
          · exact .inr (.inl rfl)
        only := fun y column member => by
          have written := Grid.mem_columnsOf_iff.mp member
          rw [blank] at written
          cases written
        complete := fun choice meets c member x occurs =>
          (left x _).mpr (meets.fits c member x occurs)
      }
      recorded := by simp [Recorded]
    }
    pending := rfl
    solved := fun _ => {
      consistent := by simp
      numbers := by simp
      inhabited := by
        rintro x - (⟨c, none, -⟩ | ⟨e, fits⟩)
        · cases none
        · exact ⟨e, (left x e).mpr fits⟩
    }
  }

end Evaluation

theorem JoinQuery.WellFormed.regular {q : JoinQuery} (wellFormed : q.WellFormed p)
    : Regular p q.kinds q.conditions where
  spelled := wellFormed.synonyms
  apart := wellFormed.apart
  allowed := wellFormed.allowed
  lines c member n occurs :=
    Program.exists_mem_listing_iff.mpr (by have := wellFormed.lines c member n occurs; omega)

theorem Evaluation.Regular.mono (regular : Regular p kinds conditions)
    (subset : ∀ c ∈ kept, c ∈ conditions)
    : Regular p kinds kept where
  spelled c member := regular.spelled c (subset c member)
  apart c member := regular.apart c (subset c member)
  allowed c member := regular.allowed c (subset c member)
  lines c member := regular.lines c (subset c member)

/-- A condition alone does not lie on a cycle. -/
theorem tame_singleton (apart : ∀ x, c.first = .synonym x → c.second ≠ .synonym x) : Tame [c] := by
  intro c' member x y joins linked
  obtain rfl := List.mem_singleton.mp member
  rcases Relation.ReflTransGen.cases_head linked with rfl | ⟨_, ⟨_, ⟨among, others⟩, _⟩, _⟩
  · rcases joins with ⟨first, second⟩ | ⟨first, second⟩ <;> exact apart x first second
  · exact others (List.mem_singleton.mp among)

namespace Evaluation

/-- What is exact for the conditions that are kept is exact for all. -/
theorem Exact.of_arranges (exact_ : Exact p kinds kept s) (arranges : Arranges conditions kept)
    : Exact p kinds conditions s where
  solvable := exact_.solvable.imp fun _ => arranges.meets_iff.mp
  mentioned c member x occurs := by
    obtain ⟨c', isKept, first, second, -⟩ := arranges.covers c member
    have occurs' : x ∈ c'.synonyms := by
      rw [Condition.mem_synonyms, first, second]
      exact Condition.mem_synonyms.mp occurs
    obtain ⟨values, found, unique, members⟩ := exact_.mentioned c' isKept x occurs'
    refine ⟨values, found, unique, fun e => (members e).trans ?_⟩
    simp only [arranges.meets_iff]
  unmentioned x synonym absent :=
    exact_.unmentioned x synonym fun c isKept => absent c (arranges.subset c isKept)

end Evaluation

section Query

variable {q : JoinQuery} (setting : Setting p subject.knowledge) (wellFormed : q.WellFormed p)

/-- Where the conditions kept form a cycle, all are between synonyms. -/
theorem JoinQuery.WellFormed.linked (wellFormed : q.WellFormed p)
    (arranges : Arranges q.conditions kept) (cycle : ¬ Tame kept) (member : c ∈ q.conditions)
    : c.link?.isSome = true := by
  by_contra unlinked
  have fixed : c.link? = none := by simpa using unlinked
  exact cycle (arranges.tame (wellFormed.forest ⟨c, member, fixed⟩))

include setting wellFormed in
/-- Several conditions are done one after the other, settled, and tried together if they form a
cycle.
-/
theorem Evaluation.Settled.ends_arranged (arranges : Arranges q.conditions kept)
    (start : Settled p q.kinds kept [] s)
    : Ends subject (Unsolvable p q.kinds q.conditions) s (do
        (kept.map (·.tree q.kinds)).forM suchThat
        settle
        if ← ask (formCycle (kept.map (·.tree q.kinds))) then
          resolveCycle (kept.map (·.tree q.kinds))) fun _ s' =>
        Exact p q.kinds q.conditions s' ∧ s'.sheet.selected = s.sheet.selected := by
  have regular := wellFormed.regular.mono arranges.subset
  have unsolvable : Unsolvable p q.kinds kept = Unsolvable p q.kinds q.conditions := by
    simp only [Unsolvable, arranges.meets_iff]
  rw [← unsolvable]
  refine .bind ((start.ends_forM_suchThat setting regular arranges.unique fun _ isKept => isKept).mono ?_)
  rintro - s₁ ⟨done, progress₁⟩
  refine .bind ((done.ends_settle setting regular arranges.unique fun _ isKept => isKept).mono ?_)
  rintro - s₂ ⟨settled, progress₂⟩
  have progress := progress₁.trans progress₂
  obtain ⟨found, searched, exactly⟩ : ∃ found,
      formCycle (kept.map (·.tree q.kinds)) = .ok found ∧ (found = false ↔ Tame kept) :=
    exists_formCycle arranges.unique
  refine .bind (.ask ?_)
  rw [searched]
  change Ends subject _ s₂ (if found = true then resolveCycle _ else pure ()) _
  by_cases tame : Tame kept
  · rw [if_neg (by simp [exactly.mpr tame])]
    have exact_ := settled.exact regular arranges.unique tame
    exact .pure ⟨exact_.of_arranges arranges, progress.selected⟩
  · rw [if_pos (by simpa using mt exactly.mp tame)]
    have linked : ∀ c ∈ kept, c.link?.isSome = true := fun c isKept =>
      wellFormed.linked arranges tame (arranges.subset c isKept)
    refine (settled.held.ends_resolveCycle regular setting linked).mono ?_
    rintro - s₃ ⟨exact_, selected⟩
    exact ⟨exact_.of_arranges arranges, selected.trans progress.selected⟩

include setting wellFormed in
theorem Evaluation.Settled.ends_suchThatAll (start : ∀ all, Settled p q.kinds all [] s)
    : Ends subject (Unsolvable p q.kinds q.conditions) s
        (suchThatAll (q.conditions.map (·.tree q.kinds))) fun _ s' =>
        Exact p q.kinds q.conditions s' ∧ s'.sheet.selected = s.sheet.selected := by
  have regular := wellFormed.regular
  match given : q.conditions with
  | [] => exact absurd given wellFormed.conditions
  | [c] =>
    rw [given] at regular
    refine ((start [c]).ends_suchThat setting regular List.nodup_nil (by simp) (by simp)
      (by simp)).mono ?_
    rintro - s' ⟨settled, progress⟩
    refine ⟨settled.exact regular (List.nodup_singleton c) ?_, progress.selected⟩
    exact tame_singleton (regular.apart c (by simp))
  | first :: second :: rest =>
    obtain ⟨kept, arrangedAs, arranges⟩ := exists_arranged subject.order regular.spelled regular.allowed
    rw [← given]
    have several : suchThatAll (q.conditions.map (·.tree q.kinds)) = (do
        let conditions ← ask (arranged (← read).order (q.conditions.map (·.tree q.kinds)))
        conditions.forM suchThat
        settle
        if ← ask (formCycle conditions) then resolveCycle conditions) := by
      rw [given]
      rfl
    rw [several]
    refine .bind (.read ?_)
    rw [arrangedAs]
    exact Settled.ends_arranged setting wellFormed arranges (start kept)

include setting wellFormed in
/-- A query ends with what it selects, or has no solution. -/
theorem JoinQuery.ends_query (distinct : (p.procedures.map (·.name)).Nodup)
    : Ends subject (Unsolvable p q.kinds q.conditions) .start (query q.tree) fun text _ =>
        (∃ choice, Meets p q.kinds q.conditions choice) ∧ Lists text (q.Selects p) := by
  have describes := KnowledgeBase.describes_of_ofProgram? setting.known
  let selected := ((q.kinds q.selected).label, q.selected)
  unfold query
  refine .bind (.ask (show Answers _ (.ok _) _ from Ends.bind ?_))
  -- the first part of the query only says which synonym is selected
  change Ends subject _ ⟨{ Sheet.start with selected }, []⟩ (do
    suchThatAll (q.conditions.map (·.tree q.kinds))
    pure PUnit.unit) _
  refine .bind ((Settled.ends_suchThatAll setting wellFormed fun all => .start _).mono ?_)
  rintro - s ⟨exact_, selected⟩
  obtain ⟨text, answered, lists⟩ :=
    exact_.exists_answer describes distinct wellFormed.selected selected
  refine .pure (.bind (.sheet (.bind (.read (.ask ?_)))))
  rw [answered]
  exact ⟨exact_.solvable, lists⟩

end Query

/-- A query about an accepted program is answered with exactly what it selects if some choice meets all
its conditions, and fails if none does, in whatever order sets come out.
-/
theorem Analysis.join_exact [Order] {text file : String} {a : Analysis} {q : JoinQuery}
    (accepted : Analysis.ofText text = .ok a) (filled : a.program.Filled)
    (distinct : (a.program.procedures.map (·.name)).Nodup) (declared : a.program.CalleesDeclared)
    (short : a.program.Short) (wellFormed : q.WellFormed a.program)
    : ((∃ choice, Meets a.program q.kinds q.conditions choice) →
        ∃ answer s, query q.tree (a.subject file) .start = .ok answer s
          ∧ Lists answer (q.Selects a.program))
      ∧ ((¬ ∃ choice, Meets a.program q.kinds q.conditions choice) →
        ∃ fault s, query q.tree (a.subject file) .start = .error fault s) := by
  have setting : Setting a.program (a.subject file).knowledge :=
    ⟨(Analysis.ofText_eq_ok accepted).2, Analysis.named accepted, filled, declared, short⟩
  have ends := JoinQuery.ends_query setting wellFormed distinct
  unfold Ends at ends
  split at ends
  next answer s answered =>
    exact ⟨fun _ => ⟨answer, s, answered, ends.2⟩, fun unsolvable => absurd ends.1 unsolvable⟩
  next fault s failed =>
    exact ⟨fun solvable => absurd solvable ends, fun _ => ⟨fault, s, failed⟩⟩

set_option maxRecDepth 10000 in
/-- The loop, a statement directly inside it and a variable that both touch: each two of them are
linked. The call is selected because the procedure called modifies a variable that the loop uses.
-/
theorem Analysis.join_exact_triangle
    : ∃ a, Analysis.ofText "procedure A \x7b while i \x7b x = y; call B; \x7d z = x; \x7d
          procedure B \x7b y = 1; \x7d" = .ok a
      ∧ ∃ q : JoinQuery, q.WellFormed a.program ∧ q.Selects a.program (.line 3) ∧ ∃ answer s,
          query q.tree (a.subject "code.txt") .start = .ok answer s
          ∧ Lists answer (q.Selects a.program) := by
  let q : JoinQuery := {
    kinds := fun x => if x = "w" then .loop else if x = "v" then .variable else .statement
    selected := "s"
    conditions := [⟨.parent, .synonym "w", .synonym "s"⟩, ⟨.modifies, .synonym "s", .synonym "v"⟩,
      ⟨.uses, .synonym "w", .synonym "v"⟩]
  }
  have wellFormed (p : Program) : q.WellFormed p := {
    conditions := by simp [q]
    selected := by decide
    synonyms := by decide
    apart := by simp [q]
    allowed := by simp [q, RelationName.Allows, Condition.firstKind, Condition.secondKind, Term.synonym?]
    lines := by simp [q]
    forest := by simp [q, Condition.link?]
  }
  refine exists_ok_of (fun a => a.program.Filled ∧ (a.program.procedures.map (·.name)).Nodup
      ∧ a.program.CalleesDeclared ∧ a.program.Short
      ∧ 1 ∈ a.knowledge.linesOfKind "WHILE"
      ∧ a.knowledge.parent.markedAt 1 3 = true
      ∧ "y" ∈ a.knowledge.modifies.columnsOf "3" ∧ "y" ∈ a.knowledge.uses.columnsOf "1")
    (by decide +kernel) fun a source checked => ?_
  obtain ⟨filled, distinct, declared, short, loop, parent, modified, used⟩ := checked
  have describes := Analysis.describes source
  have named := Analysis.named source
  obtain ⟨-, modifies, uses⟩ :=
    KnowledgeBase.ofProgram?_eq_some (Analysis.ofText_eq_ok source).2
  have inside : a.program.Parent 1 3 :=
    (describes.parent_tabulates short filled).markedAt_iff.mp parent
  obtain ⟨⟨s, listed⟩, ⟨s', listed'⟩⟩ := inside.listed
  let choice : String → Entity := fun x =>
    if x = "w" then .line 1 else if x = "v" then .name "y" else .line 3
  have modifies : a.program.TouchedFrom Stmt.Assigns (.line 3) (.name "y") :=
    ⟨3, s', listed', ((modifies.records named).statement 3 s' listed' "y").mp modified, rfl⟩
  have uses : a.program.TouchedFrom Stmt.Reads (.line 1) (.name "y") :=
    ⟨1, s, listed, ((uses.records named).statement 1 s listed "y").mp used, rfl⟩
  have fits (x : String) : a.program.Fits (q.kinds x) (choice x) := by
    dsimp only [q, choice]
    split
    · exact (describes.mem_linesOfKind (by decide)).mp loop
    · split
      · exact modifies.fits fun _ _ => .inl
      · exact ⟨3, s', listed', rfl, rfl⟩
  have meets : Meets a.program q.kinds q.conditions choice := {
    fits := fun _ _ x _ => fits x
    holds := by
      simpa [q, choice, Term.value, Program.Holds] using
        ⟨onLines_line.mpr inside, modifies, uses⟩
  }
  refine ⟨q, wellFormed _, ⟨choice, meets, fits _, rfl⟩, ?_⟩
  exact (Analysis.join_exact source filled distinct declared short (wellFormed _)).1
    ⟨choice, meets⟩

set_option maxRecDepth 10000 in
/-- A relation that is asked about things of another kind than it is made for: a variable is given for
a synonym that stands for procedures, although no procedure is modified.
-/
theorem Analysis.join_of_other_kinds
    : ∃ a, Analysis.ofText "procedure A \x7b x = 1; \x7d" = .ok a
      ∧ a.program.Filled ∧ (a.program.procedures.map (·.name)).Nodup ∧ a.program.CalleesDeclared
      ∧ ∃ q : JoinQuery, q.kinds = (fun _ => .procedure) ∧ q.selected = "q"
        ∧ q.conditions = [⟨.modifies, .synonym "p", .synonym "q"⟩]
        ∧ (¬ ∃ choice, Meets a.program q.kinds q.conditions choice)
        ∧ ∃ s, query q.tree (a.subject "code.txt") .start = .ok "x" s := by
  let q : JoinQuery := ⟨fun _ => .procedure, "q", [⟨.modifies, .synonym "p", .synonym "q"⟩]⟩
  refine exists_ok_of (fun a => decide (a.program.Filled ∧ (a.program.procedures.map (·.name)).Nodup
        ∧ a.program.CalleesDeclared ∧ a.knowledge.procedureNames = ["A"]
        ∧ ∀ entry ∈ a.program.listing, "A" ∉ entry.2.ownModified ∧ "A" ∉ entry.2.ownUsed)
      && (query q.tree (a.subject "code.txt")).run' .start == some "x")
    (by decide +kernel) fun a source evaluated => ?_
  obtain ⟨checked, answered⟩ := (Bool.and_eq_true _ _).mp evaluated
  obtain ⟨filled, distinct, declared, procedures, untouched⟩ := of_decide_eq_true checked
  refine ⟨filled, distinct, declared, q, rfl, rfl, rfl, ?_, ?_⟩
  · rintro ⟨choice, fits, holds⟩
    have modifies : a.program.TouchedFrom Stmt.Assigns (choice "p") (choice "q") :=
      holds _ (List.mem_singleton_self _)
    have procedure : a.program.Fits .procedure (choice "q") :=
      fits _ (List.mem_singleton_self _) "q" (by decide)
    obtain ⟨z, same⟩ := modifies.name
    rw [same] at modifies procedure
    have known := (Analysis.describes source).mem_procedureNames.mpr procedure
    rw [procedures, List.mem_singleton] at known
    rcases modifies.fits fun _ _ => .inl with ⟨impossible, -⟩ | ⟨-, line, s, listed, touched⟩
    · cases impossible
    · obtain ⟨notModified, notUsed⟩ := untouched _ listed
      rw [← known] at notModified notUsed
      rcases touched with assigned | used
      · exact notModified ((Stmt.mem_ownModified _ _).mpr assigned)
      · exact notUsed ((Stmt.mem_ownUsed _ _).mpr used)
  · cases outcome : query q.tree (a.subject "code.txt") .start with
    | ok answer s =>
      have same : answer = "x" := by simpa [EStateM.run', EStateM.run, outcome] using answered
      exact ⟨s, by rw [same]⟩
    | error => simp [EStateM.run', EStateM.run, outcome] at answered

end ProgramQuery

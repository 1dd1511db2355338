import ProgramQuery.Proofs.Evaluation.Conjunction
import ProgramQuery.Proofs.Evaluation.Join
import ProgramQuery.Proofs.Evaluation.SelfReaching
import ProgramQuery.Proofs.Query.Readings

/-! A query for its truth is answered by true or false as soon as it has a condition: every condition that
is worked out without failing is noted as true. For a join of relations the truth is whether its synonyms
can stand for anything at all.
-/

namespace ProgramQuery

open Text Evaluation Query ProgramQuery.Relation

/-- The query is noted as true. -/
def Sheet.Affirmed (s : Sheet) : Prop :=
  s.final? truthRow = some (.flag true)

namespace Evaluation

variable {α β : Type} {subject : Subject} {before after : Prop} {x c relation : String}
  {first second : Argument} {m : EvalM α}

/-- The state with something else selected. -/
def State.selecting (selected : String × String) (s : State) : State :=
  { s with sheet := { s.sheet with selected } }

def reselect (selected : String × String) : EStateM.Result Fault State α → EStateM.Result Fault State α
  | .ok a s => .ok a (s.selecting selected)
  | .error fault s => .error fault (s.selecting selected)

/-- A computation takes no notice of what is selected. The query is noted as true after it if it should
be, unless there was a failure. -/
def Notes (subject : Subject) (before after : Prop) (m : EvalM α) : Prop :=
  ∀ s, (before → s.sheet.Affirmed) →
    (∀ selected, m subject (s.selecting selected) = reselect selected (m subject s))
    ∧ Ends subject True s m fun _ s' => after → s'.sheet.Affirmed

theorem Notes.pure {a : α} : Notes subject before before (pure a) :=
  fun _ affirmed => ⟨fun _ => rfl, affirmed⟩

theorem Notes.throw {fault : Fault} : Notes subject before after (throw fault : EvalM α) :=
  fun _ _ => ⟨fun _ => rfl, trivial⟩

theorem Notes.bind {between : Prop} {f : α → EvalM β} (begun : Notes subject before between m)
    (next : ∀ a, Notes subject between after (f a))
    : Notes subject before after (m >>= f) := by
  intro s affirmed
  obtain ⟨blind, noted⟩ := begun s affirmed
  unfold Ends at noted ⊢
  simp only [Bind.bind, ReaderT.bind, EStateM.bind, blind]
  cases ended : m subject s with
  | ok a s' =>
    rw [ended] at noted
    exact next a s' noted
  | error fault s' => exact ⟨fun _ => rfl, trivial⟩

theorem Notes.mono {weaker : Prop} (notes : Notes subject before after m) (implies : weaker → after)
    : Notes subject before weaker m := by
  intro s affirmed
  obtain ⟨blind, noted⟩ := notes s affirmed
  exact ⟨blind, noted.mono fun _ _ noted holds => noted (implies holds)⟩

theorem Notes.asked {asked : Asked α} {good : α → Prop} {f : α → EvalM β}
    (answers : Answers True asked good) (next : ∀ a, good a → Notes subject before after (f a))
    : Notes subject before after (Evaluation.ask asked >>= f) := by
  cases asked with
  | ok a => exact next a answers
  | error fault => exact .throw

theorem Notes.ask {asked : Asked α} {f : α → EvalM β} (next : ∀ a, Notes subject before after (f a))
    : Notes subject before after (Evaluation.ask asked >>= f) :=
  .asked (.trivial asked) fun a _ => next a

theorem Notes.sheet {f : Sheet → EvalM α}
    (same : ∀ page selected, f { page with selected } = f page)
    (next : ∀ page, Notes subject before after (f page))
    : Notes subject before after (sheet >>= f) := by
  intro s affirmed
  obtain ⟨blind, noted⟩ := next s.sheet s affirmed
  refine ⟨fun selected => ?_, noted⟩
  change f { s.sheet with selected } subject (s.selecting selected) = _
  rw [same]
  exact blind selected

theorem Notes.read {f : Subject → EvalM α} (next : Notes subject before after (f subject))
    : Notes subject before after (read >>= f) :=
  next

/-- A list is gone through to the end, and a nonempty one ends as its members do. -/
theorem Notes.forM {f : α → EvalM PUnit} {xs : List α}
    (each : ∀ x ∈ xs, ∀ before, Notes subject before True (f x))
    : Notes subject before (xs ≠ [] ∨ before) (xs.forM f) := by
  induction xs generalizing before with
  | nil => exact Notes.pure.mono (by simp)
  | cons x rest ih =>
    refine (each x (by simp) before).bind fun _ => ?_
    exact (ih fun x member => each x (by simp [member])).mono fun _ => .inr trivial

theorem Notes.forIn {f : α → PUnit → EvalM (ForInStep PUnit)} {xs : List α}
    (each : ∀ x ∈ xs, Notes subject True True (f x ⟨⟩))
    : Notes subject True True (forIn xs PUnit.unit f) := by
  induction xs with
  | nil => exact .pure
  | cons x rest ih =>
    rw [List.forIn_cons]
    refine (each x (by simp)).bind fun step => ?_
    cases step with
    | done => exact .pure
    | yield => exact ih fun x member => each x (by simp [member])

theorem Notes.mapM {f : α → EvalM β} {xs : List α} (each : ∀ x, Notes subject before before (f x))
    : Notes subject before before (xs.mapM f) := by
  induction xs with
  | nil => exact .pure
  | cons x rest ih =>
    rw [List.mapM_cons]
    exact (each x).bind fun _ => ih.bind fun _ => .pure

theorem affirmed_judged {s : Sheet} {truth : Bool} (holds : truth = true) :
    (s.judged c truth).Affirmed := by
  simp [Sheet.judged, Sheet.Affirmed, Sheet.final?, Grid.cell?_put, holds]

/-- Whatever is recorded without failing is noted as true. -/
theorem notes_narrow {outcome : Cell} : Notes subject before True (narrow c x outcome) := by
  intro s _
  simp only [Ends, narrow]
  by_cases row : x ∈ s.sheet.cells.rowNames
  · have row' (selected : String × String) : x ∈ (s.selecting selected).sheet.cells.rowNames := row
    by_cases fixed : x = Sheet.fixedRow
    · subst fixed
      simp only [Sheet.narrow_fixedRow row, Sheet.narrow_fixedRow (row' _)]
      cases outcome.truth with
      | true => exact ⟨fun _ => rfl, fun _ => affirmed_judged rfl⟩
      | false => exact ⟨fun _ => rfl, trivial⟩
    · cases outcome with
      | set values =>
        simp only [Sheet.narrow_set row fixed, Sheet.narrow_set (row' _) fixed]
        cases empty : values.isEmpty with
        | true => exact ⟨fun _ => rfl, trivial⟩
        | false => exact ⟨fun _ => rfl, fun _ => affirmed_judged (by simp [empty])⟩
      | datum d =>
        simp only [Sheet.narrow_datum c row fixed, Sheet.narrow_datum c (row' _) fixed]
        exact ⟨fun _ => rfl, trivial⟩
  · have row' (selected : String × String) : x ∉ (s.selecting selected).sheet.cells.rowNames := row
    simp only [Sheet.narrow_of_absent row, Sheet.narrow_of_absent (row' _)]
    exact ⟨fun _ => rfl, trivial⟩

theorem notes_relate : Notes subject before True (relate relation first second) := by
  refine .read ?_
  dsimp only
  split
  case h_9 =>
    refine .ask fun holds => ?_
    cases holds with
    | false => exact .throw
    | true =>
      intro s _
      exact ⟨fun _ => rfl, fun _ => by simp [Sheet.Affirmed, Sheet.final?, Grid.cell?_put]⟩
  all_goals exact .ask fun _ => notes_narrow.bind fun _ => notes_narrow

theorem notes_conditionParts : Notes subject before before (conditionParts c) := by
  unfold conditionParts
  split
  · exact .pure
  · exact .throw

theorem notes_byType : Notes subject before before (byType x) :=
  Notes.sheet (fun _ _ => rfl) fun _ => .ask fun _ => .pure

theorem notes_byValues : Notes subject before before (byValues x) :=
  Notes.sheet (fun _ _ => rfl) fun _ => .ask fun _ => .pure

theorem notes_valuesOf : Notes subject before before (valuesOf x) := by
  refine .sheet (fun _ _ => rfl) fun _ => .ask fun cell => ?_
  cases cell with
  | set values => exact .pure
  | datum d => exact .throw

theorem notes_head : Notes subject before before first.head := by
  unfold Argument.head
  split
  · split
    · exact .pure
    · exact .throw
  · exact .throw
  · exact .pure

theorem notes_confirmBoth {other : String} : Notes subject before True (confirmBoth c other) :=
  notes_conditionParts.bind fun _ => .read <| notes_valuesOf.bind fun _ => notes_valuesOf.bind fun _ =>
    .ask fun _ => notes_narrow.bind fun _ => notes_narrow.bind fun _ =>
      notes_narrow.bind fun _ => notes_narrow

theorem notes_pending (f : List String → List String)
    : Notes subject before before (modify fun s => { s with pending := f s.pending }) :=
  fun _ affirmed => ⟨fun _ => rfl, affirmed⟩

theorem notes_followUp {done : String} {follow : String → EvalM Unit}
    (each : ∀ c before, Notes subject before True (follow c))
    : Notes subject True True (followUp done x follow) := by
  -- the conditions are read off the state once, so it may be any list of them
  suffices notes : ∀ conditions : List String, Notes subject True True (do
      unless conditions.isEmpty do
        modify fun s => { s with pending := done :: s.pending }
        conditions.forM follow
        modify fun s => { s with pending := s.pending.erase done }) from
    fun s => notes ((s.sheet.columns x).filter fun column =>
      isCondition column && column != done && !s.pending.contains column) s
  intro conditions
  cases conditions with
  | nil => exact .pure
  | cons c rest =>
    refine Notes.bind (notes_pending (done :: ·)) fun _ => ?_
    exact ((Notes.forM fun c _ => each c).mono fun _ => .inr trivial).bind fun _ =>
      notes_pending (·.erase done)

section Again

variable {again : String → Argument → Argument → EvalM Unit}
  (notes : ∀ relation first second before, Notes subject before True (again relation first second))
include notes

theorem notes_followFirst {done a : String}
    : Notes subject before True (followFirst again done a second c) := by
  refine notes_conditionParts.bind fun _ => ?_
  dsimp only
  split
  · exact notes_byType.bind fun _ => notes_byValues.bind fun _ => notes _ _ _ _
  · refine notes_head.bind fun _ => ?_
    split
    · exact notes_confirmBoth.bind fun _ => notes_byValues.bind fun _ => notes_byValues.bind fun _ =>
        notes _ _ _ _
    · exact notes_byValues.bind fun _ => notes_byType.bind fun _ => notes _ _ _ _

theorem notes_followSecond {b : String} : Notes subject before True
    (followSecond again first b c) := by
  refine notes_conditionParts.bind fun _ => ?_
  dsimp only
  split
  · exact notes_byValues.bind fun _ => notes_byType.bind fun _ => notes _ _ _ _
  · refine notes_head.bind fun _ => ?_
    split
    · exact notes_byValues.bind fun _ => notes_byValues.bind fun _ => notes _ _ _ _
    · exact notes_byType.bind fun _ => notes_byValues.bind fun _ => notes _ _ _ _

end Again

theorem notes_executeWithin (fuel : Nat) (relation : String) (first second : Argument)
    (before : Prop)
    : Notes subject before True (executeWithin fuel relation first second) := by
  induction fuel generalizing relation first second before with
  | zero => exact .throw
  | succ fuel ih =>
    have onFirst (done a : String)
        : Notes subject True True (followUp done a (followFirst (executeWithin fuel) done a second)) :=
      notes_followUp fun _ _ => notes_followFirst ih
    have onSecond (done b : String)
        : Notes subject True True (followUp done b (followSecond (executeWithin fuel) first b)) :=
      notes_followUp fun _ _ => notes_followSecond ih
    refine notes_relate.bind fun _ => ?_
    cases first with
    | fixed value =>
      cases second with
      | fixed value' => exact .pure
      | synonym b values' => exact onSecond _ b
    | synonym a values =>
      refine (onFirst _ a).bind fun _ => ?_
      cases second with
      | fixed value' => exact .pure
      | synonym b values' => exact onSecond _ b

theorem notes_execute : Notes subject before True (execute relation first second) :=
  .sheet (fun _ _ => rfl) fun _ => notes_executeWithin _ _ _ _ _

theorem notes_settle : Notes subject True True settle := by
  refine .read <| .sheet (fun _ _ => rfl) fun _ => (Notes.forIn fun c _ => ?_).bind fun _ => .pure
  refine notes_conditionParts.bind fun _ => .sheet (fun _ _ => rfl) fun page => ?_
  -- nothing needs to be noted here, since the query is noted as true before
  have unchanged (x : String)
      : Notes subject True True (do
          let left ← ask (page.cell x Sheet.finalColumn)
          return left.same (← ask (page.cell x c))) :=
    .ask fun _ => .ask fun _ => .pure
  have again (settled : Bool) (relation a b : String)
      : Notes subject True True (do
          unless settled do execute relation (← byValues a) (← byValues b)
          return ForInStep.yield PUnit.unit) := by
    cases settled with
    | true => exact .pure
    | false =>
      exact notes_byValues.bind fun _ => notes_byValues.bind fun _ => notes_execute.bind fun _ => .pure
  refine (unchanged _).bind fun kept => ?_
  cases kept with
  | false => exact again false _ _ _
  | true => exact (unchanged _).bind fun settled => again settled _ _ _

theorem notes_resolveCycle (conditions : List Tree)
    : Notes subject True True (resolveCycle conditions) := by
  refine .read <| .sheet (fun _ _ => rfl) fun _ => ?_
  refine (Notes.mapM fun _ => notes_valuesOf.bind fun _ => .pure).bind fun _ =>
    .ask fun _ => (Notes.forIn fun _ _ => ?_).bind fun _ => .pure
  exact notes_narrow.bind fun _ => .pure

theorem notes_declare {type : Datum}
    : Notes subject before False (modifySheet (·.declare x type)) := by
  refine fun s _ => ⟨fun selected => ?_, False.elim⟩
  have same : { s.sheet with selected }.declare x type = { s.sheet.declare x type with selected } := by
    simp only [Sheet.declare]
    split <;> rfl
  exact congrArg (fun page => EStateM.Result.ok () (State.mk page s.pending)) same

theorem notes_argument {kind : String} {value : Entity}
    : Notes subject before False (argument kind value) := by
  unfold argument
  split
  · exact Notes.pure.mono False.elim
  · refine notes_declare.bind fun _ => .sheet (fun _ _ => rfl) fun _ => ?_
    split <;> exact .pure

theorem notes_suchThat (condition : Tree) (before : Prop)
    : Notes subject before True (suchThat condition) :=
  .ask fun _ => .ask fun _ => notes_argument.bind fun _ =>
    notes_argument.bind fun _ => .ask fun _ => notes_execute

theorem notes_comparison (clause : Tree) (before : Prop)
    : Notes subject before True (comparison clause) :=
  .ask fun _ => notes_declare.bind fun _ => .read <| .ask fun _ => notes_narrow

theorem notes_pattern (clause : Tree) (before : Prop)
    : Notes subject before True (pattern clause) :=
  .ask fun _ => notes_declare.bind fun _ => .read <| .ask fun _ => notes_narrow

theorem length_byLaxity (conditions : List Tree)
    : Answers True (byLaxity conditions) (·.length = conditions.length) := by
  refine (Answers.mapM fun _ _ => .trivial _).bind fun weighed all => .ok ?_
  rw [List.length_map, List.length_mergeSort, all.length_eq]

/-- Some condition is left when conditions are put in order. -/
theorem arranged_ne_nil (order : Order) {conditions : List Tree} (nonempty : conditions ≠ [])
    : Answers True (arranged order conditions) (· ≠ []) := by
  refine (length_byLaxity _).bind fun sorted length => ?_
  refine (Answers.mapM fun _ _ => .trivial _).bind fun keyed all => ?_
  refine (length_byLaxity _).mono fun kept length' none => nonempty ?_
  rw [none, (order.conditions_perm _).length_eq, List.length_map] at length'
  cases keyed with
  | nil => exact List.length_eq_zero_iff.mp (by rw [← length, all.length_eq]; rfl)
  | cons entry rest => simp [distinct] at length'

theorem notes_suchThatAll (conditions : List Tree)
    : Notes subject before True (suchThatAll conditions) := by
  unfold suchThatAll
  split
  · exact .throw
  · exact notes_suchThat _ _
  next nonempty _ =>
    -- the truth is noted by the conditions that are left, so there must be one
    refine .read <| .asked (arranged_ne_nil _ nonempty) fun kept left => ?_
    have each : Notes subject before True (kept.forM suchThat) :=
      (Notes.forM fun c _ => notes_suchThat c).mono fun _ => .inl left
    refine each.bind fun _ => notes_settle.bind fun _ => .ask fun cyclic => ?_
    cases cyclic with
    | true => exact notes_resolveCycle _
    | false => exact .pure

/-- A clause with its conditions. -/
inductive IsClause : Tree → Prop
  | comparisons {conditions : List Tree} (nonempty : conditions ≠ []) : IsClause (.node "WITH" "" 0 conditions)
  | patterns {conditions : List Tree} (nonempty : conditions ≠ []) : IsClause (.node "PATTERN" "" 0 conditions)
  | relations (conditions : List Tree) : IsClause (.node "SUCH_THAT" "" 0 conditions)

theorem notes_part {clause : Tree} (isClause : IsClause clause) (before : Prop)
    : Notes subject before True (part clause) := by
  cases isClause with
  | comparisons nonempty => exact (Notes.forM fun c _ => notes_comparison c).mono fun _ => .inl nonempty
  | patterns nonempty => exact (Notes.forM fun c _ => notes_pattern c).mono fun _ => .inl nonempty
  | relations conditions => exact notes_suchThatAll conditions

/-- The query for a synonym under some clauses. -/
def clauseQuery (type x : String) (clauses : List Tree) : Tree :=
  .node "QUERY" "query" 0 (.node "RESULT" "" 0 [.leaf type x] :: clauses)

def truthQuery (clauses : List Tree) : Tree :=
  clauseQuery "BOOLEAN" "BOOLEAN" clauses

/-- What is replied to a query that was read. -/
def Subject.replyTo (subject : Subject) (root : Tree) : String :=
  match query root subject .start with
  | .ok answer _ => answer
  | .error _ s => if s.sheet.selected.1 = Sheet.truthRow then "false" else "none"

section Replies

variable {clauses : List Tree} (all : ∀ clause ∈ clauses, IsClause clause)
include all

/-- The answer is read off the sheet on which the clauses are worked out, whatever is selected. -/
theorem query_clauseQuery (type x : String)
    : query (clauseQuery type x clauses) subject .start
      = match clauses.forM part subject .start with
        | .ok _ s => ask ({ s.sheet with selected := (type, x) }.answer subject.knowledge) subject
            (s.selecting (type, x))
        | .error fault s => .error fault (s.selecting (type, x)) := by
  have blind := (((Notes.forM fun clause member => notes_part (all clause member)) :
    Notes subject False _ _) .start False.elim).1 (type, x)
  -- the result part only sets what is selected, to which the clauses are blind
  change ((do clauses.forM part; ask ((← sheet).answer (← read).knowledge) : EvalM String)) subject
    (State.start.selecting (type, x)) = _
  simp only [Bind.bind, ReaderT.bind, EStateM.bind, blind]
  cases clauses.forM part subject .start <;> rfl

/-- The truth of some clauses is that they are worked out without failing. -/
theorem replyTo_truthQuery (nonempty : clauses ≠ [])
    : (subject.replyTo (truthQuery clauses) = "true"
        ∧ Ends subject False .start (clauses.forM part) fun _ _ => True)
      ∨ (subject.replyTo (truthQuery clauses) = "false"
        ∧ ¬ Ends subject False .start (clauses.forM part) fun _ _ => True) := by
  have worked : Notes subject False True (clauses.forM part) :=
    (Notes.forM fun clause member => notes_part (all clause member)).mono fun _ => .inl nonempty
  have noted := (worked .start False.elim).2
  unfold Subject.replyTo truthQuery
  rw [query_clauseQuery all]
  unfold Ends at noted ⊢
  cases ended : clauses.forM part subject .start with
  | error fault s => exact .inr ⟨if_pos rfl, id⟩
  | ok _ s =>
    rw [ended] at noted
    have final : { s.sheet with selected := ("BOOLEAN", "BOOLEAN") }.final? "BOOLEAN"
        = some (.flag true) := noted trivial
    have answer : { s.sheet with selected := ("BOOLEAN", "BOOLEAN") }.answer subject.knowledge
        = .ok "true" := by
      simp only [Sheet.answer, final]
      exact congrArg Except.ok (by decide)
    dsimp only
    rw [answer]
    exact .inl ⟨rfl, trivial⟩

/-- Where a synonym is answered with something, the clauses did not fail. -/
theorem ends_of_answered {type x : String}
    (answered : subject.answered (clauseQuery type x clauses) ≠ [])
    : Ends subject False .start (clauses.forM part) fun _ _ => True := by
  unfold Subject.answered Subject.response? at answered
  rw [query_clauseQuery all] at answered
  unfold Ends
  cases ended : clauses.forM part subject .start with
  | ok _ s => trivial
  | error fault s => exact answered (by rw [ended]; rfl)

end Replies

theorem isClause_of_mem_parts {found : Parser.Clauses} {clause : Tree}
    (member : clause ∈ found.parts)
    : IsClause clause := by
  have nonempty {label : String} {conditions : List Tree}
      (member : clause ∈ Parser.clauseNode label conditions)
      : conditions ≠ [] := by
    rintro rfl
    cases member
  rcases List.mem_append.mp member with member | member
  · rcases List.mem_append.mp member with member | member
    · rw [Parser.mem_clauseNode member]
      exact .comparisons (nonempty member)
    · rw [Parser.mem_clauseNode member]
      exact .patterns (nonempty member)
  · rw [Parser.mem_clauseNode member]
    exact .relations _

end Evaluation

def JoinQuery.clauses (q : JoinQuery) : List Tree :=
  [.node "SUCH_THAT" "" 0 (q.conditions.map (·.tree q.kinds))]

section Join

variable {p : Program} {subject : Subject} {q : JoinQuery} (setting : Setting p subject.knowledge)
  (wellFormed : q.WellFormed p)
include setting wellFormed

/-- Where the clauses of a join are worked out without failing, they can be met. -/
theorem JoinQuery.solvable_of_ends
    (ended : Ends subject False .start (q.clauses.forM part) fun _ _ => True)
    : ∃ choice, Meets p q.kinds q.conditions choice := by
  have ends : Ends subject (Unsolvable p q.kinds q.conditions) .start (q.clauses.forM part)
      fun _ _ => ∃ choice, Meets p q.kinds q.conditions choice :=
    .bind ((Settled.ends_suchThatAll setting wellFormed fun _ => .start ("", "")).mono fun _ _ ended =>
      .pure ended.1.solvable)
  unfold Ends at ends ended
  split at ends
  next => exact ends
  next fault s failed =>
    rw [failed] at ended
    exact ended.elim

/-- Then a synonym of the join is answered with something. -/
theorem JoinQuery.answered_of_solvable (distinct : (p.procedures.map (·.name)).Nodup)
    {c : Condition} (member : c ∈ q.conditions) (occurs : q.selected ∈ c.synonyms)
    (solvable : ∃ choice, Meets p q.kinds q.conditions choice)
    : subject.answered q.tree ≠ [] := by
  have ends := JoinQuery.ends_query setting wellFormed distinct
  unfold Subject.answered Subject.response?
  unfold Ends at ends
  split at ends
  next answer s ended =>
    obtain ⟨-, values, rfl, -, members⟩ := ends
    have words : ∀ t ∈ values.map Entity.text, IsWord t := by
      intro t listed
      obtain ⟨e, inside, rfl⟩ := List.mem_map.mp listed
      obtain ⟨choice, -, fits, rfl⟩ := (members e).mp inside
      exact (fits.isPlace setting.named).isWord
    obtain ⟨choice, meets⟩ := solvable
    have selected := (members _).mpr ⟨choice, meets, meets.fits c member _ occurs, rfl⟩
    rw [ended, Option.map_some, Option.getD_some, answerTexts_listed words]
    exact List.ne_nil_of_mem (List.mem_map_of_mem selected)
  next fault s ended => exact absurd solvable ends

end Join

/-- A query for its truth that has a clause is answered by true or false, and by true wherever another
query with these clauses is answered with some value. For a join of relations it is answered by true only
if each of its synonyms, selected instead, is answered with some value. Comparisons that exclude each
other are true together, so this is not said of them. The order in which sets come out does not matter.
-/
theorem Analysis.truth_of_clauses [Order] {text file asked : String} {a : Analysis}
    {reading : Reading} {clauses : List Tree} (accepted : Analysis.ofText text = .ok a)
    (read : Reading.ofText a.knowledge.scope asked = .ok reading)
    (tree : reading.tree = truthQuery clauses) (nonempty : clauses ≠ [])
    : ((a.subject file).reply asked = "true" ∨ (a.subject file).reply asked = "false")
      ∧ (∀ type x, (a.subject file).answered (clauseQuery type x clauses) ≠ [] →
        (a.subject file).reply asked = "true")
      ∧ (a.program.Filled → (a.program.procedures.map (·.name)).Nodup → a.program.CalleesDeclared →
        a.program.Short → ∀ q : JoinQuery, q.WellFormed a.program → q.clauses = clauses →
        (∃ c ∈ q.conditions, q.selected ∈ c.synonyms) → (a.subject file).reply asked = "true" →
        (a.subject file).answered (clauseQuery (q.kinds q.selected).label q.selected clauses) ≠ []) := by
  -- the parser makes no clause without a condition
  have all (clause : Tree) (member : clause ∈ clauses) : IsClause clause := by
    obtain ⟨result, s₁, found, s₂, -, whole⟩ := Reading.exists_run read
    rw [tree, truthQuery, clauseQuery, Parser.Clauses.query] at whole
    simp only [Tree.node.injEq, List.cons.injEq, true_and] at whole
    exact isClause_of_mem_parts (whole.2 ▸ member)
  have reply : (a.subject file).reply asked = (a.subject file).replyTo (truthQuery clauses) :=
    tree ▸ Subject.reply_of_reading read
  rw [reply]
  have told := @replyTo_truthQuery (a.subject file) clauses all nonempty
  refine ⟨told.imp And.left And.left, fun type x answered => ?_, ?_⟩
  · rcases told with ⟨isTrue, -⟩ | ⟨-, fails⟩
    · exact isTrue
    · exact absurd (ends_of_answered all answered) fails
  · rintro filled distinct declared short q wellFormed rfl ⟨c, member, occurs⟩ isTrue
    have setting : Setting a.program (a.subject file).knowledge :=
      ⟨(Analysis.ofText_eq_ok accepted).2, Analysis.named accepted, filled, declared, short⟩
    rcases told with ⟨-, ends⟩ | ⟨isFalse, -⟩
    · exact JoinQuery.answered_of_solvable setting wellFormed distinct member occurs
        (JoinQuery.solvable_of_ends setting wellFormed ends)
    · exact absurd (isTrue.symm.trans isFalse) (by decide)

set_option maxRecDepth 10000 in
/-- Two statements in a row: it is true that one follows the other, and the first one is answered. -/
theorem Analysis.truth_of_clauses_following
    : ∃ a, Analysis.ofText "procedure p \x7b x = 1; y = x; \x7d" = .ok a
      ∧ (a.subject "code.txt").reply "stmt s, t; Select BOOLEAN such that Follows(s, t)" = "true"
      ∧ ∃ q : JoinQuery, q.WellFormed a.program ∧ q.selected = "s"
        ∧ (a.subject "code.txt").answered q.tree ≠ [] := by
  let q : JoinQuery := ⟨fun _ => .statement, "s", [⟨.follows, .synonym "s", .synonym "t"⟩]⟩
  have wellFormed (p : Program) : q.WellFormed p := {
    conditions := by simp [q]
    selected := by decide
    synonyms := by decide
    apart := by simp [q]
    allowed := by simp [q, RelationName.Allows]
    lines := by simp [q]
    forest := by simp [q, Condition.link?]
  }
  refine exists_ok_of (fun a => a.program.Filled ∧ (a.program.procedures.map (·.name)).Nodup
      ∧ a.program.CalleesDeclared ∧ a.program.Short
      ∧ (a.subject "code.txt").reply "stmt s, t; Select BOOLEAN such that Follows(s, t)" = "true"
      ∧ ((Reading.ofText a.knowledge.scope "stmt s, t; Select BOOLEAN such that Follows(s, t)").toOption.any
        fun reading => decide (reading.tree = truthQuery q.clauses)) = true)
    (by decide +kernel) fun a accepted checked => ?_
  obtain ⟨filled, distinct, declared, short, isTrue, asked⟩ := checked
  obtain ⟨reading, read, tree⟩ := exists_ok asked
  refine ⟨isTrue, q, wellFormed _, rfl, ?_⟩
  exact (Analysis.truth_of_clauses accepted read (of_decide_eq_true tree) (by simp [JoinQuery.clauses])).2.2
    filled distinct declared short q (wellFormed _) rfl ⟨_, List.mem_singleton_self _, by decide⟩ isTrue

set_option maxRecDepth 10000 in
/-- Two comparisons that leave different names: the last one alone is noted as true, and nothing is left.
-/
theorem Analysis.truth_of_disjoint_comparisons
    : ∃ a, Analysis.ofText "procedure a \x7b x = 1; \x7d procedure b \x7b x = 1; \x7d" = .ok a
      ∧ (a.subject "code.txt").reply
        "procedure p; Select BOOLEAN with p.procName = \"a\" and p.procName = \"b\"" = "true"
      ∧ (a.subject "code.txt").reply
        "procedure p; Select p with p.procName = \"a\" and p.procName = \"b\"" = "" :=
  exists_ok_of _ (by decide +kernel) fun _ _ checked => checked

end ProgramQuery

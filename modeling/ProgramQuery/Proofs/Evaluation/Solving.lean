import ProgramQuery.Proofs.Evaluation.Execution

/-! Working out condition after condition. Where no condition lies on a cycle, the values left agree
with every condition done so far.
-/

namespace ProgramQuery.Evaluation

open Text ProgramQuery.Relation

variable {p : Program} {kinds : String → Kind} {all done before : List Condition}
  {s s' : State} {subject : Subject} {c t : Condition} {x y : String} {e : Entity}

/-- The values left agree with the conditions done so far, and none of their synonyms has been left
without any. -/
structure Solved (p : Program) (kinds : String → Kind) (done : List Condition) (s : State)
    : Prop where
  consistent : ∀ c ∈ done, Consistent p (s.sheet.Left p kinds) c
  numbers : ∀ c ∈ done, c.link? = none → ∀ e e', c.first.Range (s.sheet.Left p kinds) e →
    c.second.Range (s.sheet.Left p kinds) e' → p.Holds c.relation e e'
  inhabited : ∀ x, isSynonym x = true →
    (∃ c ∈ done, x ∈ c.synonyms) ∨ (∃ e, p.Fits (kinds x) e) → ∃ e, s.sheet.Left p kinds x e

/-- Whatever ranges a condition is worked out for, the others are consistent. -/
theorem Solved.ready (solved : Solved p kinds before s)
    (others : ∀ t ∈ done, t ≠ c → t ∈ before) {lefts rights : Entity → Prop}
    : Ready p kinds (Open done [c.title]) c lefts rights s := by
  intro x _
  refine ⟨s.sheet.Left p kinds x, fun e value _ => value, ?_⟩
  rw [Function.update_eq_self]
  intro t y z isOpen joins _
  refine solved.consistent t (others t isOpen.1 ?_)
  rintro rfl
  exact isOpen.2.2 (by simp)

section Refined

variable (solved : Solved p kinds before s) (regular : Regular p kinds all)
  (subset : ∀ c ∈ done, c ∈ all) (isDone : c ∈ done) (others : ∀ t ∈ done, t ≠ c → t ∈ before)
  (refined : Refined p kinds (Open done [c.title]) c (c.first.Range (s.sheet.Left p kinds))
    (c.second.Range (s.sheet.Left p kinds)) s s')
include regular subset isDone refined

theorem left_first (first : c.first = .synonym x)
    : s'.sheet.Left p kinds x e ↔ s.sheet.Left p kinds x e
        ∧ ∃ e', c.second.Range (s.sheet.Left p kinds) e' ∧ p.Holds c.relation e e' := by
  have apart := regular.apart c (subset c isDone) x first
  rw [refined.near x (Condition.mem_synonyms.mpr (.inl first)), Passes, Matched]
  simp [first, apart, Term.Range]

theorem left_second (second : c.second = .synonym x)
    : s'.sheet.Left p kinds x e ↔ s.sheet.Left p kinds x e
        ∧ ∃ e', c.first.Range (s.sheet.Left p kinds) e' ∧ p.Holds c.relation e' e := by
  have apart : c.first ≠ .synonym x :=
    fun first => regular.apart c (subset c isDone) x first second
  rw [refined.near x (Condition.mem_synonyms.mpr (.inr second)), Passes, MatchedBack]
  simp [second, apart, Term.Range]

/-- The synonyms of the condition are left with values. -/
theorem exists_left (occurs : x ∈ c.synonyms) : ∃ e, s'.sheet.Left p kinds x e := by
  obtain ⟨e, e', isLeft, isRight, holds⟩ := refined.met
  rcases Condition.mem_synonyms.mp occurs with first | second
  · exact ⟨e, (left_first regular subset isDone refined first).mpr
      ⟨by simpa [first, Term.Range] using isLeft, e', isRight, holds⟩⟩
  · exact ⟨e', (left_second regular subset isDone refined second).mpr
      ⟨by simpa [second, Term.Range] using isRight, e, isLeft, holds⟩⟩

theorem consistent_refined : Consistent p (s'.sheet.Left p kinds) c := by
  have forth {a b : String} (first : c.first = .synonym a) (second : c.second = .synonym b)
      (e : Entity) (left : s'.sheet.Left p kinds a e)
      : ∃ e', s'.sheet.Left p kinds b e' ∧ p.Holds c.relation e e' := by
    obtain ⟨left, e', right, holds⟩ := (left_first regular subset isDone refined first).mp left
    rw [second] at right
    refine ⟨e', (left_second regular subset isDone refined second).mpr ⟨right, e, ?_, holds⟩, holds⟩
    simpa [first, Term.Range] using left
  have back {a b : String} (first : c.first = .synonym a) (second : c.second = .synonym b)
      (e : Entity) (right : s'.sheet.Left p kinds b e)
      : ∃ e', s'.sheet.Left p kinds a e' ∧ p.Holds c.relation e' e := by
    obtain ⟨right, e', left, holds⟩ := (left_second regular subset isDone refined second).mp right
    rw [first] at left
    refine ⟨e', (left_first regular subset isDone refined first).mpr ⟨left, e, ?_, holds⟩, holds⟩
    simpa [second, Term.Range] using right
  intro x y joins e value
  rcases joins with ⟨first, second⟩ | ⟨first, second⟩
  · obtain ⟨e', value', holds⟩ := forth first second e value
    exact ⟨e', value', .inl ⟨first, second, holds⟩⟩
  · obtain ⟨e', value', holds⟩ := back first second e value
    exact ⟨e', value', .inr ⟨first, second, holds⟩⟩

theorem numbers_refined (unlinked : c.link? = none) {e e' : Entity}
    (isFirst : c.first.Range (s'.sheet.Left p kinds) e)
    (isSecond : c.second.Range (s'.sheet.Left p kinds) e')
    : p.Holds c.relation e e' := by
  have left {x : String} {e : Entity} (first : c.first = .synonym x) :=
    left_first (e := e) regular subset isDone refined first
  have right {x : String} {e : Entity} (second : c.second = .synonym x) :=
    left_second (e := e) regular subset isDone refined second
  obtain ⟨d, d', isLeft, isRight, holds⟩ := refined.met
  cases first : c.first with
  | synonym a =>
    cases second : c.second with
    | synonym b => simp [Condition.link?, first, second] at unlinked
    | line n =>
      rw [first] at isFirst
      rw [second] at isSecond
      obtain ⟨-, d', right', holds'⟩ := (left first).mp isFirst
      rw [second] at right'
      rwa [show e' = d' from isSecond.trans right'.symm]
  | line n =>
    rw [first] at isFirst isLeft
    cases second : c.second with
    | synonym b =>
      rw [second] at isSecond
      obtain ⟨-, d, left', holds'⟩ := (right second).mp isSecond
      rw [first] at left'
      rwa [show e = d from isFirst.trans left'.symm]
    | line n' =>
      rw [second] at isSecond isRight
      rwa [show e = d from isFirst.trans isLeft.symm,
        show e' = d' from isSecond.trans isRight.symm]

include solved others in
/-- Working out one more condition, for what is left to its synonyms, keeps the values in agreement
with the others. -/
theorem Solved.of_refined (progress : Progress p kinds s s') : Solved p kinds done s' := by
  have among {t : Condition} {y z : String} (isDone' : t ∈ done) (differs : t ≠ c)
      (joins : t.Joins y z)
      : Open done [c.title] t := by
    refine ⟨isDone', ⟨y, z, joins⟩, fun pending => differs ?_⟩
    have same : t.title = c.title := by simpa using pending
    exact (regular.title_inj (subset t isDone') (subset c isDone) joins same.symm).symm
  have unchanged {y : String} (synonym : isSynonym y = true)
      (beyond : ¬ ∃ x ∈ c.synonyms, Linked (Open done [c.title]) x y) :=
    refined.away y synonym fun x occurs linked => beyond ⟨x, occurs, linked⟩
  constructor
  · intro t isDone' x y joins
    by_cases same : t = c
    · subst same
      exact consistent_refined regular subset isDone refined x y joins
    have isOpen := among isDone' same joins
    have spelled := regular.spelled t (subset t isDone')
    by_cases reached : ∃ z ∈ c.synonyms, Linked (Open done [c.title]) z x
    · obtain ⟨z, occurs, linked⟩ := reached
      exact refined.around z occurs t x y isOpen joins linked x y joins
    · -- beyond the reach of the condition nothing has changed
      have beyond : ¬ ∃ z ∈ c.synonyms, Linked (Open done [c.title]) z y := fun ⟨z, occurs, linked⟩ =>
        reached ⟨z, occurs, linked.tail ⟨t, isOpen, joins.symm⟩⟩
      intro e value
      obtain ⟨e', value', relates⟩ := solved.consistent t (others t isDone' same) x y joins e
        ((unchanged (spelled x joins.mem_synonyms.1) reached e).mp value)
      exact ⟨e', (unchanged (spelled y joins.mem_synonyms.2) beyond e').mpr value', relates⟩
  · intro t isDone' unlinked e e' first second
    by_cases same : t = c
    · subst same
      exact numbers_refined regular subset isDone refined unlinked first second
    have spelled := regular.spelled t (subset t isDone')
    have narrower {x : String} (occurs : x ∈ t.synonyms) (e : Entity) :=
      progress.left x e (spelled x occurs)
    exact solved.numbers t (others t isDone' same) unlinked e e'
      (first.mono fun x same => narrower (Condition.mem_synonyms.mpr (.inl same)))
      (second.mono fun x same => narrower (Condition.mem_synonyms.mpr (.inr same)))
  · intro x synonym why
    by_cases reached : ∃ z ∈ c.synonyms, Linked (Open done [c.title]) z x
    · obtain ⟨z, occurs, linked⟩ := reached
      exact (refined.around z occurs).exists_value linked
        (exists_left regular subset isDone refined occurs)
    · have why' : (∃ c ∈ before, x ∈ c.synonyms) ∨ ∃ e, p.Fits (kinds x) e := by
        refine why.imp_left fun ⟨t, isDone', occurs⟩ => ⟨t, others t isDone' ?_, occurs⟩
        rintro rfl
        exact reached ⟨x, occurs, .refl⟩
      obtain ⟨e, value⟩ := solved.inhabited x synonym why'
      exact ⟨e, (unchanged synonym reached e).mpr value⟩

end Refined

/-- Only the values left matter. -/
theorem Solved.congr (solved : Solved p kinds before s) (spelled : ∀ c ∈ before, c.Spelled)
    (same : ∀ y e, isSynonym y = true → (s'.sheet.Left p kinds y e ↔ s.sheet.Left p kinds y e))
    : Solved p kinds before s' where
  consistent c isDone x y joins e value := by
    obtain ⟨occurs, occurs'⟩ := joins.mem_synonyms
    obtain ⟨e', value', relates⟩ := solved.consistent c isDone x y joins e
      ((same x e (spelled c isDone x occurs)).mp value)
    exact ⟨e', (same y e' (spelled c isDone y occurs')).mpr value', relates⟩
  numbers c isDone unlinked e e' first second := by
    have narrower {x : String} (occurs : x ∈ c.synonyms) (e : Entity) :=
      (same x e (spelled c isDone x occurs)).mp
    exact solved.numbers c isDone unlinked e e'
      (first.mono fun x same => narrower (Condition.mem_synonyms.mpr (.inl same)))
      (second.mono fun x same => narrower (Condition.mem_synonyms.mpr (.inr same)))
  inhabited x synonym why := by
    obtain ⟨e, value⟩ := solved.inhabited x synonym why
    exact ⟨e, (same x e synonym).mpr value⟩

def declaration (kinds : String → Kind) : Term → String
  | .synonym x => (kinds x).label
  | .line _ => "INTEGER"

def spelling : Term → String
  | .synonym x => x
  | .line n => showInt n

theorem heading_tree (term : Term)
    : (term.tree kinds).heading = .ok (declaration kinds term, spelling term) := by
  cases term <;> rfl

theorem label_not_fixed (k : Kind) : Argument.isFixedKind k.label = false := by
  cases k <;> decide

theorem initialType_label (k : Kind) : initialType k.label = k.label := by
  cases k <;> decide

/-- An argument has been looked up: its synonym has a row, and nothing else has changed. -/
structure Prepared (p : Program) (kinds : String → Kind) (all done : List Condition) (term : Term)
    (s s' : State)
    : Prop where
  inv : Inv p kinds all done s'
  progress : Progress p kinds s s'
  left : ∀ y e, isSynonym y = true → (s'.sheet.Left p kinds y e ↔ s.sheet.Left p kinds y e)
  row : ∀ x, term = .synonym x → x ∈ s'.sheet.cells.rowNames

theorem Inv.declare (inv : Inv p kinds all done s) (regular : Regular p kinds all) (member : c ∈ all)
    (occurs : x ∈ c.synonyms)
    : Prepared p kinds all done (.synonym x) s
        { s with sheet := s.sheet.declare x (.text (kinds x).label) } := by
  have synonym := regular.spelled c member x occurs
  have left (y : String) (e : Entity)
      : (s.sheet.declare x (.text (kinds x).label)).Left p kinds y e ↔ s.sheet.Left p kinds y e := by
    rw [Sheet.Left, Sheet.final?_declare, Sheet.Left]
  have columns (y column : String)
      (recorded : column ∈ (s.sheet.declare x (.text (kinds x).label)).columns y)
      : column = Sheet.typeColumn ∨ column ∈ s.sheet.columns y := by
    simp only [Sheet.columns, Grid.mem_columnsOf_iff, Sheet.cell?_declare] at recorded ⊢
    split at recorded
    next new => exact .inl new.2.2.symm
    next => exact .inr recorded
  refine ⟨⟨inv.sound.declare synonym, ?_, ?_, ?_⟩, ⟨rfl, ?_, ?_, ?_, ?_⟩, fun y e _ => left y e, ?_⟩
  · intro y row
    rcases Sheet.mem_rowNames_declare.mp row with rfl | row
    · exact .inr (.inr ⟨c, member, occurs⟩)
    · exact inv.rows y row
  · intro y column recorded
    rcases columns y column recorded with type | recorded
    · exact .inl type
    · exact inv.only y column recorded
  · exact fun choice meets c member x occurs =>
      (left x _).mpr (inv.complete choice meets c member x occurs)
  · simp only [Sheet.declare]
    split <;> rfl
  · exact fun y row => Sheet.mem_rowNames_declare.mpr (.inr row)
  · intro y column recorded
    simp only [Sheet.columns, Grid.mem_columnsOf_iff, Sheet.cell?_declare] at recorded ⊢
    split
    · rfl
    · exact recorded
  · exact fun y e _ value => (left y e).mp value
  · rintro _ ⟨⟩
    exact Sheet.mem_rowNames_declare.mpr (.inl rfl)

/-- An argument offers what is left to its synonym, or anything of its kind where nothing is known
of it. -/
theorem Inv.ends_argument (inv : Inv p kinds all done s) (regular : Regular p kinds all)
    (member : c ∈ all) {term : Term} (isArgument : c.first = term ∨ c.second = term)
    : Ends subject (Unsolvable p kinds all) s
        (argument (declaration kinds term) (.name (spelling term))) fun argument s' =>
        Prepared p kinds all done term s s' ∧ ∃ range, Offers p kinds argument term range
          ∧ Covers p kinds all term range
          ∧ (Solved p kinds done s → range = term.Range (s.sheet.Left p kinds)) := by
  cases term with
  | line n =>
    refine ⟨⟨inv, .refl, fun _ _ _ => .rfl, fun _ => nofun⟩, _, .number n, fun _ _ => rfl, ?_⟩
    exact fun _ => rfl
  | synonym x =>
    have occurs := Condition.mem_synonyms.mpr isArgument
    have synonym := regular.spelled c member x occurs
    have prepared := inv.declare regular member occurs
    have covers : Covers p kinds all (.synonym x) (p.Fits (kinds x)) :=
      covers_kind (fun c member => member) member occurs
    unfold argument
    simp only [declaration, label_not_fixed, Bool.false_eq_true, if_false]
    refine .bind (.modifySheet (.bind (.sheet ?_)))
    rw [show (Entity.name (spelling (.synonym x))).text = x from rfl, Sheet.final?_declare]
    rcases inv.sound.final_cases synonym with none | ⟨values, found⟩
    · rw [none, initialType_label]
      refine ⟨prepared, _, .kind x, covers, fun _ => ?_⟩
      funext e
      simp [Term.Range, Sheet.Left, none]
    · rw [found]
      have isLeft : s.sheet.Left p kinds x = (· ∈ values.members) := Sheet.left_eq found
      cases empty : values.isEmpty with
      | false =>
        simp only [Cell.truth, empty, Bool.not_false, if_true]
        refine ⟨prepared, _, .values x values (inv.sound.fits x values synonym found).2, ?_, ?_⟩
        · rw [← isLeft]
          exact fun choice meets => inv.complete choice meets c member x occurs
        · exact fun _ => isLeft.symm
      | true =>
        -- only where there is nothing of its kind can a synonym be left without values
        simp only [Cell.truth, empty, Bool.not_true, Bool.false_eq_true, if_false,
          initialType_label]
        refine ⟨prepared, _, .kind x, covers, fun solved => ?_⟩
        have nothing (e : Entity) : ¬ s.sheet.Left p kinds x e := by
          rw [isLeft, List.isEmpty_iff.mp empty]
          exact List.not_mem_nil
        funext e
        refine propext (iff_of_false (fun fits => ?_) (nothing e))
        obtain ⟨e', value⟩ := solved.inhabited x synonym (.inr ⟨e, fits⟩)
        exact nothing e' value

/-- The conditions done so far are recorded and none is being followed up. Where there is no cycle,
the values left agree with them. -/
structure Settled (p : Program) (kinds : String → Kind) (all done : List Condition) (s : State)
    : Prop where
  held : Held p kinds all done s
  pending : s.pending = []
  solved : Tame all → Solved p kinds done s

section Conditions

variable (setting : Setting p subject.knowledge) (regular : Regular p kinds all)
include setting regular

/-- A condition has been worked out for what was left to its synonyms. -/
theorem Inv.ends_settling (inv : Inv p kinds all done s) (unique : done.Nodup)
    (subset : ∀ c ∈ done, c ∈ all) (isDone : c ∈ done) (pending : s.pending = [])
    (recorded : Recorded before s) (others : ∀ t ∈ done, t ≠ c → t ∈ before)
    (rows : ∀ x ∈ c.synonyms, x ∈ s.sheet.cells.rowNames) {first second : Argument}
    {lefts rights : Entity → Prop}
    (offers : Offers p kinds first c.first lefts) (offers' : Offers p kinds second c.second rights)
    (covers : Covers p kinds all c.first lefts) (covers' : Covers p kinds all c.second rights)
    (agrees : Tame all → Solved p kinds before s ∧ lefts = c.first.Range (s.sheet.Left p kinds)
      ∧ rights = c.second.Range (s.sheet.Left p kinds))
    : Ends subject (Unsolvable p kinds all) s (execute c.relation.title first second) fun _ s' =>
        Settled p kinds all done s' ∧ Progress p kinds s s' := by
  refine (inv.ends_execute setting regular subset unique isDone
    (fun t isDone differs => recorded t (others t isDone differs)) rows offers offers' covers
    covers').mono ?_
  rintro _ s' ⟨held', progress, refines⟩
  rw [pending] at refines
  refine ⟨⟨held', progress.pending.trans pending, fun tame => ?_⟩, progress⟩
  obtain ⟨solved, rfl, rfl⟩ := agrees tame
  exact solved.of_refined regular subset isDone others (refines tame (solved.ready others)) progress

theorem Settled.ends_suchThat (settled : Settled p kinds all before s) (unique : before.Nodup)
    (subset : ∀ c ∈ before, c ∈ all) (member : c ∈ all) (fresh : c ∉ before)
    : Ends subject (Unsolvable p kinds all) s (suchThat (c.tree kinds)) fun _ s' =>
        Settled p kinds all (before ++ [c]) s' ∧ Progress p kinds s s' := by
  have first : (do (← (c.tree kinds).part 0).heading)
      = (.ok (declaration kinds c.first, spelling c.first) : Asked _) := heading_tree c.first
  have second : (do (← (c.tree kinds).part 1).heading)
      = (.ok (declaration kinds c.second, spelling c.second) : Asked _) := heading_tree c.second
  unfold suchThat
  rw [first, second]
  refine .bind (.ask (.ok (.bind (.ask (.ok ?_)))))
  refine .bind ((settled.held.inv.ends_argument regular member (.inl rfl)).mono ?_)
  rintro argument s₁ ⟨prepared₁, lefts, offers, covers, isLeft⟩
  refine .bind ((prepared₁.inv.ends_argument regular member (.inr rfl)).mono ?_)
  rintro argument' s₂ ⟨prepared₂, rights, offers', covers', isRight⟩
  refine .bind (.ask (.ok ?_))
  have progress := prepared₁.progress.trans prepared₂.progress
  have inv₂ : Inv p kinds all (before ++ [c]) s₂ :=
    prepared₂.inv.mono fun t isDone => by simp [isDone]
  have unique' : (before ++ [c]).Nodup :=
    List.nodup_append.mpr ⟨unique, by simp, by simpa using fun t isDone => ne_of_mem_of_not_mem isDone fresh⟩
  have subset' (t : Condition) (isDone : t ∈ before ++ [c]) : t ∈ all := by
    rcases List.mem_append.mp isDone with isDone | isDone
    · exact subset t isDone
    · rwa [List.mem_singleton.mp isDone]
  have others (t : Condition) (isDone : t ∈ before ++ [c]) (differs : t ≠ c) : t ∈ before := by
    simpa [differs] using isDone
  have rows (x : String) (occurs : x ∈ c.synonyms) : x ∈ s₂.sheet.cells.rowNames := by
    rcases Condition.mem_synonyms.mp occurs with first | second
    · exact prepared₂.progress.rows x (prepared₁.row x first)
    · exact prepared₂.row x second
  have agrees (tame : Tame all) : Solved p kinds before s₂
      ∧ lefts = c.first.Range (s₂.sheet.Left p kinds)
      ∧ rights = c.second.Range (s₂.sheet.Left p kinds) := by
    have spelled (t : Condition) (isDone : t ∈ before) := regular.spelled t (subset t isDone)
    have solved := settled.solved tame
    have solved₁ := solved.congr spelled prepared₁.left
    have same {x : String} (occurs : x ∈ c.synonyms) (e : Entity) :=
      prepared₂.left x e (regular.spelled c member x occurs)
    have same' {x : String} (occurs : x ∈ c.synonyms) (e : Entity) :=
      (same occurs e).trans (prepared₁.left x e (regular.spelled c member x occurs))
    refine ⟨solved₁.congr spelled prepared₂.left, (isLeft solved).trans ?_,
      (isRight solved₁).trans ?_⟩
    · exact Term.range_congr fun x first e => (same' (Condition.mem_synonyms.mpr (.inl first)) e).symm
    · exact Term.range_congr fun x second e => (same (Condition.mem_synonyms.mpr (.inr second)) e).symm
  refine (inv₂.ends_settling setting regular unique' subset' (by simp)
    (progress.pending.trans settled.pending) (settled.held.recorded.mono progress) others rows offers
    offers' covers covers' agrees).mono ?_
  exact fun _ s₃ ⟨settled₃, progress₃⟩ => ⟨settled₃, progress.trans progress₃⟩

/-- All conditions are worked out, one after the other. -/
theorem Settled.ends_forM_suchThat {rest : List Condition} (settled : Settled p kinds all before s)
    (unique : (before ++ rest).Nodup) (subset : ∀ c ∈ before ++ rest, c ∈ all)
    : Ends subject (Unsolvable p kinds all) s ((rest.map (·.tree kinds)).forM suchThat) fun _ s' =>
        Settled p kinds all (before ++ rest) s' ∧ Progress p kinds s s' := by
  induction rest generalizing before s with
  | nil =>
    rw [List.append_nil]
    exact .pure ⟨settled, .refl⟩
  | cons c rest ih =>
    obtain ⟨unique', -, apart⟩ := List.nodup_append.mp unique
    have fresh : c ∉ before := fun isDone => apart c isDone c (by simp) rfl
    refine .bind ((settled.ends_suchThat setting regular unique'
      (fun t isDone => subset t (by simp [isDone])) (subset c (by simp)) fresh).mono ?_)
    rintro _ s₁ ⟨settled₁, progress₁⟩
    rw [List.append_cons] at unique subset ⊢
    refine (ih settled₁ unique subset).mono ?_
    exact fun _ s₂ ⟨settled₂, progress₂⟩ => ⟨settled₂, progress₁.trans progress₂⟩

omit setting in
/-- Whether a condition allows more than is left to one of its synonyms can be asked. -/
theorem Held.ends_unchanged (held : Held p kinds all done s) (subset : ∀ c ∈ done, c ∈ all)
    (isDone : c ∈ done) (occurs : x ∈ c.synonyms) {reason : Prop}
    : Ends subject reason s (do
        let left ← ask (s.sheet.cell x Sheet.finalColumn)
        return left.same (← ask (s.sheet.cell x c.title))) fun _ s' => s' = s := by
  obtain ⟨values, found⟩ := held.exists_final regular subset isDone occurs
  obtain ⟨cell, found'⟩ := Option.isSome_iff_exists.mp
    (Grid.mem_columnsOf_iff.mp (held.recorded c isDone x occurs))
  rw [cell_eq_ok found, cell_eq_ok found']
  exact .bind (.ask (.ok (.bind (.ask (.ok (.pure rfl))))))

omit setting in
/-- The conditions that are settled are those between synonyms. -/
theorem Held.mem_conditions (held : Held p kinds all done s) (subset : ∀ c ∈ done, c ∈ all)
    {order : Order} {column : String}
    (member : column ∈ (order.titles s.sheet.allColumns).filter isCondition)
    : ∃ c ∈ done, c.title = column ∧ ∃ a b, c.first = .synonym a ∧ c.second = .synonym b := by
  obtain ⟨listed, isCondition⟩ := List.mem_filter.mp member
  rw [(order.titles_perm _).mem_iff] at listed
  obtain ⟨y, recorded⟩ := held.inv.sound.orderly.mem_allColumns.mp (List.mem_eraseDups.mp listed)
  rcases held.inv.only y column recorded with rfl | rfl | ⟨c, isDone, rfl, -⟩
  · exact absurd isCondition (by decide)
  · exact absurd isCondition (by decide)
  · exact ⟨c, isDone, rfl, Condition.link?_isSome.mp
      ((Condition.isCondition_title (regular.spelled c (subset c isDone))).mp isCondition)⟩

/-- Settling keeps the values in agreement with all conditions. -/
theorem Settled.ends_settle (settled : Settled p kinds all done s) (unique : done.Nodup)
    (subset : ∀ c ∈ done, c ∈ all)
    : Ends subject (Unsolvable p kinds all) s settle fun _ s' =>
        Settled p kinds all done s' ∧ Progress p kinds s s' := by
  unfold settle
  refine .bind (.read (.bind (.sheet ?_)))
  let invariant (s' : State) : Prop := Settled p kinds all done s' ∧ Progress p kinds s s'
  refine .bind ((Ends.forIn (fun column member s₁ holds => ?_)
    (show invariant s from ⟨settled, .refl⟩)).mono fun _ s' holds => .pure holds)
  obtain ⟨settled₁, progress₁⟩ := holds
  obtain ⟨c, isDone, rfl, a, b, first, second⟩ :=
    settled.held.mem_conditions regular subset member
  have held₁ := settled₁.held
  have occursA : a ∈ c.synonyms := Condition.mem_synonyms.mpr (.inl first)
  have occursB : b ∈ c.synonyms := Condition.mem_synonyms.mpr (.inr second)
  -- the condition is worked out again for the values left, unless they are all that it allows
  have again : Ends subject (Unsolvable p kinds all) s₁ (do
      execute c.relation.title (← byValues a) (← byValues b)
      pure (ForInStep.yield PUnit.unit)) fun step s₂ =>
        step = .yield PUnit.unit ∧ invariant s₂ := by
    refine .bind ((held₁.ends_byValues regular subset isDone occursA).mono ?_)
    rintro argument _ ⟨rfl, offers⟩
    refine .bind ((held₁.ends_byValues regular subset isDone occursB).mono ?_)
    rintro argument' _ ⟨rfl, offers'⟩
    refine .bind ((held₁.inv.ends_settling setting regular unique subset isDone settled₁.pending
      held₁.recorded (fun t isDone _ => isDone) (fun x => held₁.recorded.row isDone)
      (first ▸ offers) (second ▸ offers') (first ▸ held₁.covers_left subset isDone occursA)
      (second ▸ held₁.covers_left subset isDone occursB) fun tame => ?_).mono ?_)
    · exact ⟨settled₁.solved tame, by rw [first]; rfl, by rw [second]; rfl⟩
    · exact fun _ s₂ ⟨settled₂, progress₂⟩ => .pure ⟨rfl, settled₂, progress₁.trans progress₂⟩
  have kept (isSettled : Bool) : Ends subject (Unsolvable p kinds all) s₁
      (if isSettled = true then pure (ForInStep.yield PUnit.unit) else do
        execute c.relation.title (← byValues a) (← byValues b)
        pure (ForInStep.yield PUnit.unit)) fun step s₂ =>
          step = .yield PUnit.unit ∧ invariant s₂ := by
    cases isSettled with
    | true => exact .pure ⟨rfl, settled₁, progress₁⟩
    | false => exact again
  rw [conditionParts_title (regular.spelled c (subset c isDone)) first second]
  refine .bind (.pure (.bind (.sheet ?_)))
  refine .bind ((held₁.ends_unchanged regular subset isDone occursB).mono ?_)
  rintro same _ rfl
  cases same with
  | false => exact .bind (.pure (kept false))
  | true =>
    refine .bind ((held₁.ends_unchanged regular subset isDone occursA).mono ?_)
    rintro isSettled _ rfl
    exact kept isSettled

end Conditions

end ProgramQuery.Evaluation

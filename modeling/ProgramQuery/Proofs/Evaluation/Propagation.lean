import ProgramQuery.Proofs.Evaluation.Carrying

/-! Working out a condition and following it up keeps every choice that meets all conditions. Where no
condition lies on a cycle, it also carries the change through all conditions that hang on it.
-/

namespace ProgramQuery.Evaluation

open Text ProgramQuery.Relation

variable {p : Program} {kinds : String → Kind} {all done : List Condition} {s s' : State}
  {subject : Subject} {reason : Prop} {c t : Condition} {x y : String} {e : Entity}
  {lefts rights : Entity → Prop} {sheet : Sheet}

theorem conditionParts_title (spelled : c.Spelled) (first : c.first = .synonym x)
    (second : c.second = .synonym y)
    : conditionParts c.title = pure (c.relation.title, x, y) := by
  simp [conditionParts, spelled.splitAt_title, first, second, Term.title]

theorem relationOf_title (spelled : c.Spelled) : relationOf c.title = c.relation.title := by
  simp [relationOf, spelled.splitAt_title]

theorem cell_eq_ok {column : String} {cell : Cell}
    (found : sheet.cells.cell? x column = some cell)
    : sheet.cell x column = .ok cell := by
  unfold Sheet.cell
  unfold Grid.cell? at found
  cases row : sheet.cells.row? x with
  | none => simp [row] at found
  | some cells =>
    have read : Keyed.get? cells column = some cell := by simpa [row] using found
    simp [read]

/-- The synonyms of a recorded condition have sets of values. -/
theorem Held.exists_final (held : Held p kinds all done s) (regular : Regular p kinds all)
    (subset : ∀ c ∈ done, c ∈ all) (isDone : c ∈ done) (occurs : x ∈ c.synonyms)
    : ∃ values, s.sheet.final? x = some (.set values) := by
  have synonym := regular.spelled c (subset c isDone) x occurs
  obtain ⟨cell, found⟩ := Option.isSome_iff_exists.mp
    (Grid.mem_columnsOf_iff.mp (held.recorded c isDone x occurs))
  obtain ⟨_, final, -, found, -⟩ :=
    held.inv.sound.sets x c.title cell synonym c.title_ne_columns.1 found
  exact ⟨final, found⟩

theorem Sheet.left_eq {values : EntitySet}
    (found : sheet.final? x = some (.set values))
    : sheet.Left p kinds x = (· ∈ values.members) := by
  funext e
  simp [Sheet.Left, found]

section Reading

variable (held : Held p kinds all done s) (regular : Regular p kinds all)
  (subset : ∀ c ∈ done, c ∈ all) (isDone : c ∈ done) (occurs : x ∈ c.synonyms)
include held regular subset isDone occurs

theorem Held.ends_byType
    : Ends subject reason s (byType x) fun argument s' =>
        s' = s ∧ Offers p kinds argument (.synonym x) (p.Fits (kinds x)) := by
  have typed := held.inv.sound.types x (held.recorded.row isDone occurs)
    (regular.spelled c (subset c isDone) x occurs)
  refine .bind (.sheet (.bind (.ask ?_)))
  rw [cell_eq_ok typed]
  exact ⟨rfl, .kind x⟩

theorem Held.ends_byValues
    : Ends subject reason s (byValues x) fun argument s' =>
        s' = s ∧ Offers p kinds argument (.synonym x) (s.sheet.Left p kinds x) := by
  have synonym := regular.spelled c (subset c isDone) x occurs
  obtain ⟨values, found⟩ := held.exists_final regular subset isDone occurs
  refine .bind (.sheet (.bind (.ask ?_)))
  rw [cell_eq_ok found, Sheet.left_eq found]
  exact ⟨rfl, .values x values (held.inv.sound.fits x values synonym found).2⟩

theorem Held.ends_valuesOf
    : Ends subject reason s (valuesOf x) fun values s' =>
        s' = s ∧ ∀ e, e ∈ values ↔ s.sheet.Left p kinds x e := by
  obtain ⟨values, found⟩ := held.exists_final regular subset isDone occurs
  refine .bind (.sheet (.bind (.ask ?_)))
  rw [cell_eq_ok found, Sheet.left_eq found]
  exact ⟨rfl, fun e => .rfl⟩

omit regular in
theorem Held.covers_left : Covers p kinds all (.synonym x) (s.sheet.Left p kinds x) :=
  fun choice meets => held.inv.complete choice meets c (subset c isDone) x occurs

omit held regular in
theorem covers_kind : Covers p kinds all (.synonym x) (p.Fits (kinds x)) :=
  fun _ meets => meets.fits c (subset c isDone) x occurs

end Reading

/-- The name of an argument is that of its synonym, and no synonym is named like a number. -/
theorem Offers.ends_head {argument : Argument} {term : Term} {range : Entity → Prop}
    (offers : Offers p kinds argument term range)
    : Ends subject reason s argument.head fun name s' =>
        s' = s ∧ ∀ x, isSynonym x = true → (x = name ↔ term = .synonym x) := by
  cases offers with
  | values a values fits => exact ⟨rfl, fun x _ => by simp [eq_comm]⟩
  | kind a => exact ⟨rfl, fun x _ => by simp [eq_comm]⟩
  | number n =>
    obtain ⟨nonempty, digits⟩ := showInt_digits n
    unfold Argument.head
    cases heading : (showInt n).toList with
    | nil => exact absurd heading nonempty
    | cons d ds =>
      simp only [heading]
      refine ⟨rfl, fun x synonym => iff_of_false ?_ (by simp)⟩
      exact synonym_ne_digit synonym (digits d (by simp [heading]))

/-- Narrowing a synonym of a recorded condition to values that every choice is among. -/
theorem Held.ends_narrowTo (held : Held p kinds all done s) (regular : Regular p kinds all)
    (subset : ∀ c ∈ done, c ∈ all) (isDone : c ∈ done) (occurs : x ∈ c.synonyms)
    {values : List Entity} (inside : ∀ e ∈ values, p.Fits (kinds x) e)
    (covers : ∀ choice, Meets p kinds all choice → choice x ∈ values)
    : Ends subject (Unsolvable p kinds all) s (narrowTo c.title x values) fun _ s' =>
        Held p kinds all done s' ∧ Progress p kinds s s' :=
  (held.inv.ends_narrowTo regular (subset c isDone) isDone occurs
    (held.recorded.row isDone occurs) inside covers).mono
    fun _ _ ⟨_, inv, progress, _⟩ => ⟨⟨inv, held.recorded.mono progress⟩, progress⟩

/-- Both conditions are asked of each pair of values. -/
theorem answers_both (setting : Setting p subject.knowledge) (regular : Regular p kinds all)
    (member : t ∈ all) (member' : c ∈ all) (first : t.first = .synonym x)
    (second : t.second = .synonym y) (first' : c.first = .synonym x) (second' : c.second = .synonym y)
    {e' : Entity} (fits : p.Fits (kinds x) e) (fits' : p.Fits (kinds y) e')
    : Answers (Unsolvable p kinds all)
        (do
          if ← (do (← modes subject.knowledge t.relation.title).memberMember e.byText e') then
            (← modes subject.knowledge c.relation.title).memberMember e.byText e'
          else return false)
        fun holds => holds = true ↔ p.Holds t.relation e e' ∧ p.Holds c.relation e e' := by
  obtain ⟨m, found, -, exact_⟩ := setting.modes_exact (regular.allowed t member)
  obtain ⟨m', found', -, exact'⟩ := setting.modes_exact (regular.allowed c member')
  simp only [Condition.firstKind, Condition.secondKind, first, second, first', second',
    Term.synonym?, Option.map_some, Option.getD_some] at exact_ exact'
  rw [modes_eq_ok found, modes_eq_ok found']
  have unsolvable := regular.unsolvable_of_unrelated member
  have unsolvable' := regular.unsolvable_of_unrelated member'
  simp only [Condition.firstKind, Condition.secondKind, first, second, first', second',
    Term.synonym?, Option.map_some, Option.getD_some] at unsolvable unsolvable'
  refine ((exact_.member (.inl fits) (.inl fits') (stands_byText e) (.inl rfl)).because
    unsolvable).bind fun holds isHeld => ?_
  cases holds with
  | true =>
    refine ((exact'.member (.inl fits) (.inl fits') (stands_byText e) (.inl rfl)).because
      unsolvable').mono fun holds' isHeld' => ?_
    rw [isHeld']
    exact (and_iff_right (isHeld.mp rfl)).symm
  | false => exact .ok (by simp [← isHeld])

theorem Held.ends_confirmBoth (setting : Setting p subject.knowledge)
    (regular : Regular p kinds all) (held : Held p kinds all done s)
    (subset : ∀ c ∈ done, c ∈ all) (isDone : t ∈ done) (isDone' : c ∈ done)
    (first : t.first = .synonym x) (second : t.second = .synonym y)
    (first' : c.first = .synonym x) (second' : c.second = .synonym y)
    : Ends subject (Unsolvable p kinds all) s (confirmBoth t.title c.title) fun _ s' =>
        Held p kinds all done s' ∧ Progress p kinds s s' := by
  have joins : t.Joins x y := .inl ⟨first, second⟩
  have joins' : c.Joins x y := .inl ⟨first', second'⟩
  obtain ⟨occursX, occursY⟩ := joins.mem_synonyms
  obtain ⟨occursX', occursY'⟩ := joins'.mem_synonyms
  have spelled := regular.spelled t (subset t isDone)
  unfold confirmBoth
  rw [conditionParts_title spelled first second,
    relationOf_title (regular.spelled c (subset c isDone'))]
  refine .bind (.pure (.bind (.read ?_)))
  refine .bind ((held.ends_valuesOf regular subset isDone occursX).mono ?_)
  rintro xs _ ⟨rfl, isLeft⟩
  refine .bind ((held.ends_valuesOf regular subset isDone occursY).mono ?_)
  rintro ys _ ⟨rfl, isLeft'⟩
  have fits (e : Entity) (member : e ∈ xs) : p.Fits (kinds x) e :=
    held.inv.sound.left_fits (spelled x occursX) ((isLeft e).mp member)
  have fits' (e : Entity) (member : e ∈ ys) : p.Fits (kinds y) e :=
    held.inv.sound.left_fits (spelled y occursY) ((isLeft' e).mp member)
  refine .bind (.ask ((answers_related fun e member e' member' =>
    answers_both setting regular (subset t isDone) (subset c isDone') first second first' second'
      (fits e member) (fits' e' member')).mono ?_))
  rintro ⟨lefts, rights⟩ ⟨leftsExact, rightsExact⟩
  have insideX (e : Entity) (member : e ∈ lefts) : p.Fits (kinds x) e :=
    fits e ((leftsExact e).mp member).1
  have insideY (e : Entity) (member : e ∈ rights) : p.Fits (kinds y) e :=
    fits' e ((rightsExact e).mp member).1
  have covers (choice : String → Entity) (meets : Meets p kinds all choice)
      : choice x ∈ lefts ∧ choice y ∈ rights := by
    have atX := (isLeft _).mpr (held.inv.complete choice meets t (subset t isDone) x occursX)
    have atY := (isLeft' _).mpr (held.inv.complete choice meets t (subset t isDone) y occursY)
    have holds := meets.holds t (subset t isDone)
    have holds' := meets.holds c (subset c isDone')
    rw [first, second] at holds
    rw [first', second'] at holds'
    exact ⟨(leftsExact _).mpr ⟨atX, _, atY, holds, holds'⟩,
      (rightsExact _).mpr ⟨atY, _, atX, holds, holds'⟩⟩
  refine .bind ((held.ends_narrowTo regular subset isDone occursX insideX
    fun choice meets => (covers choice meets).1).mono fun _ s₁ ⟨held₁, progress₁⟩ => ?_)
  refine .bind ((held₁.ends_narrowTo regular subset isDone' occursX' insideX
    fun choice meets => (covers choice meets).1).mono fun _ s₂ ⟨held₂, progress₂⟩ => ?_)
  refine .bind ((held₂.ends_narrowTo regular subset isDone' occursY' insideY
    fun choice meets => (covers choice meets).2).mono fun _ s₃ ⟨held₃, progress₃⟩ => ?_)
  refine (held₃.ends_narrowTo regular subset isDone occursY insideY
    fun choice meets => (covers choice meets).2).mono fun _ s₄ ⟨held₄, progress₄⟩ => ?_
  exact ⟨held₄, ((progress₁.trans progress₂).trans progress₃).trans progress₄⟩

abbrev FollowedUp (p : Program) (kinds : String → Kind) (all done : List Condition)
    (pending : List String) (x : String) (s s' : State) : Prop :=
  Held p kinds all done s' ∧ Progress p kinds s s'
  ∧ (Tame all → Carries p kinds (Open done pending) x s s')

abbrev WorkedOut (p : Program) (kinds : String → Kind) (all done : List Condition)
    (pending : List String) (t : Condition) (lefts rights : Entity → Prop) (s s' : State) : Prop :=
  Held p kinds all done s' ∧ Progress p kinds s s'
  ∧ (Tame all → Ready p kinds (Open done (t.title :: pending)) t lefts rights s →
      Refined p kinds (Open done (t.title :: pending)) t lefts rights s s')

def Repeats (subject : Subject) (p : Program) (kinds : String → Kind) (all done : List Condition)
    (pending : List String) (again : String → Argument → Argument → EvalM Unit)
    : Prop :=
  ∀ t, Open done pending t → ∀ first second lefts rights s, Held p kinds all done s →
    s.pending = pending →
    Offers p kinds first t.first lefts → Offers p kinds second t.second rights →
    Covers p kinds all t.first lefts → Covers p kinds all t.second rights →
    Ends subject (Unsolvable p kinds all) s (again t.relation.title first second) fun _ =>
      WorkedOut p kinds all done pending t lefts rights s

/-- Following up any open condition of a synonym carries a change at it across that condition. -/
def FollowsUp (subject : Subject) (p : Program) (kinds : String → Kind) (all done : List Condition)
    (pending : List String) (x : String) (follow : String → EvalM Unit)
    : Prop :=
  ∀ t, Open done pending t → x ∈ t.synonyms → ∀ s, Held p kinds all done s → s.pending = pending →
    Ends subject (Unsolvable p kinds all) s (follow t.title) fun _ =>
      FollowedUp p kinds all done pending x s

section Following

variable {pending : List String} {again : String → Argument → Argument → EvalM Unit}
  (regular : Regular p kinds all) (subset : ∀ c ∈ done, c ∈ all)
  (repeats : Repeats subject p kinds all done pending again)
include regular subset repeats

omit repeats in
/-- The two synonyms of an open condition differ. -/
theorem Open.apart {a b : String} (isOpen : Open done pending t) (first : t.first = .synonym a)
    (second : t.second = .synonym b)
    : t.Joins a b ∧ (a ∈ t.synonyms ∧ b ∈ t.synonyms) ∧ a ≠ b := by
  have joins : t.Joins a b := .inl ⟨first, second⟩
  refine ⟨joins, joins.mem_synonyms, ?_⟩
  rintro rfl
  exact regular.apart t (subset t isOpen.1) a first second

omit repeats in
/-- The two synonyms of an open condition in their order. -/
theorem Open.ends (isOpen : Open done pending t) (occurs : x ∈ t.synonyms)
    : ∃ a b, t.first = .synonym a ∧ t.second = .synonym b ∧ (a = x ∨ b = x)
      ∧ isSynonym a = true ∧ isSynonym b = true := by
  obtain ⟨a, b, first, second⟩ := Condition.link?_isSome.mp
    (Condition.exists_joins_iff.mp isOpen.2.1)
  obtain ⟨-, ⟨occursA, occursB⟩, -⟩ := isOpen.apart regular subset first second
  have spelled := regular.spelled t (subset t isOpen.1)
  refine ⟨a, b, first, second, ?_, spelled a occursA, spelled b occursB⟩
  simpa [first, second] using Condition.mem_synonyms.mp occurs

section Again

variable {a b : String} (isOpen : Open done pending t) (first : t.first = .synonym a)
  (second : t.second = .synonym b) (held : Held p kinds all done s) (isPending : s.pending = pending)
include isOpen first second held isPending

omit regular subset in
/-- An open condition can be worked out again with what is read for its synonyms. -/
theorem Repeats.ends_read {m m' : EvalM Argument}
    (reads : Ends subject (Unsolvable p kinds all) s m fun argument s' =>
      s' = s ∧ Offers p kinds argument (.synonym a) lefts)
    (reads' : Ends subject (Unsolvable p kinds all) s m' fun argument s' =>
      s' = s ∧ Offers p kinds argument (.synonym b) rights)
    (covers : Covers p kinds all (.synonym a) lefts) (covers' : Covers p kinds all (.synonym b) rights)
    : Ends subject (Unsolvable p kinds all) s (do again t.relation.title (← m) (← m')) fun _ =>
        WorkedOut p kinds all done pending t lefts rights s := by
  refine .bind (reads.mono ?_)
  rintro argument _ ⟨rfl, offers⟩
  refine .bind (reads'.mono ?_)
  rintro argument' _ ⟨rfl, offers'⟩
  exact repeats t isOpen _ _ _ _ _ held isPending (first ▸ offers) (second ▸ offers')
    (first ▸ covers) (second ▸ covers')

/-- With the values left on the left and the kind on the right. -/
theorem Repeats.ends_forth
    : Ends subject (Unsolvable p kinds all) s
        (do again t.relation.title (← byValues a) (← byType b)) fun _ =>
          FollowedUp p kinds all done pending a s := by
  obtain ⟨joins, ⟨occursA, occursB⟩, differs⟩ := isOpen.apart regular subset first second
  have isDone := isOpen.1
  refine (repeats.ends_read isOpen first second held isPending
    (held.ends_byValues regular subset isDone occursA) (held.ends_byType regular subset isDone occursB)
    (held.covers_left subset isDone occursA) (covers_kind subset isDone occursB)).mono ?_
  rintro _ s' ⟨held', progress, refines⟩
  refine ⟨held', progress, fun tame => ?_⟩
  exact carries_of_refined regular subset tame isOpen joins
    (fun e => passes_first first second differs) (fun e => passes_second first second differs)
    (fun e => held.inv.sound.left_fits (regular.spelled t (subset t isDone) b occursB)) (refines tame)

/-- With the kind on the left and the values left on the right. -/
theorem Repeats.ends_back
    : Ends subject (Unsolvable p kinds all) s
        (do again t.relation.title (← byType a) (← byValues b)) fun _ =>
          FollowedUp p kinds all done pending b s := by
  obtain ⟨joins, ⟨occursA, occursB⟩, differs⟩ := isOpen.apart regular subset first second
  have isDone := isOpen.1
  refine (repeats.ends_read isOpen first second held isPending
    (held.ends_byType regular subset isDone occursA) (held.ends_byValues regular subset isDone occursB)
    (covers_kind subset isDone occursA) (held.covers_left subset isDone occursB)).mono ?_
  rintro _ s' ⟨held', progress, refines⟩
  refine ⟨held', progress, fun tame => ?_⟩
  exact carries_of_refined regular subset tame isOpen joins.symm
    (fun e => passes_second first second differs) (fun e => passes_first first second differs)
    (fun e => held.inv.sound.left_fits (regular.spelled t (subset t isDone) a occursA)) (refines tame)

/-- With the values left on both sides. -/
theorem Repeats.ends_both
    : Ends subject (Unsolvable p kinds all) s
        (do again t.relation.title (← byValues a) (← byValues b)) fun _ s' =>
          Held p kinds all done s' ∧ Progress p kinds s s' := by
  obtain ⟨-, ⟨occursA, occursB⟩, -⟩ := isOpen.apart regular subset first second
  have isDone := isOpen.1
  exact (repeats.ends_read isOpen first second held isPending
    (held.ends_byValues regular subset isDone occursA)
    (held.ends_byValues regular subset isDone occursB) (held.covers_left subset isDone occursA)
    (held.covers_left subset isDone occursB)).mono
    fun _ s' ⟨held', progress, _⟩ => ⟨held', progress⟩

end Again

omit regular repeats in
/-- Two conditions between the same synonyms form a cycle. -/
theorem not_tame_of_parallel (isOpen : Open done pending t) (isDone : c ∈ done)
    (isPending : c.title ∈ pending) (joins : t.Joins x y) (joins' : c.Joins x y)
    : ¬ Tame all := by
  intro tame
  refine tame c (subset c isDone) x y joins' (.single ⟨t, ⟨subset t isOpen.1, ?_⟩, joins⟩)
  rintro rfl
  exact isOpen.2.2 isPending

theorem followsUp_followFirst (setting : Setting p subject.knowledge) {a : String}
    {second : Argument} (isDone : c ∈ done)
    (isPending : c.title ∈ pending) (first : c.first = .synonym a)
    (offers : Offers p kinds second c.second rights)
    : FollowsUp subject p kinds all done pending a (followFirst again c.title a second) := by
  intro t isOpen occurs s held samePending
  obtain ⟨b, d, isFirst, isSecond, atEnd, -, synonym⟩ := isOpen.ends regular subset occurs
  have spelled := regular.spelled t (subset t isOpen.1)
  unfold followFirst
  rw [conditionParts_title spelled isFirst isSecond]
  refine .bind (.pure ?_)
  dsimp only
  by_cases same : d = a
  · subst same
    rw [if_pos rfl]
    exact repeats.ends_back regular subset isOpen isFirst isSecond held samePending
  · obtain rfl := atEnd.resolve_right same
    rw [if_neg same]
    refine .bind (offers.ends_head.mono ?_)
    rintro name _ ⟨rfl, named⟩
    by_cases parallel : d = name
    · -- another condition between the same two synonyms
      have second' := (named d synonym).mp parallel
      rw [if_pos parallel]
      refine .bind ((held.ends_confirmBoth setting regular subset isOpen.1 isDone isFirst isSecond
        first second').mono ?_)
      rintro _ s₁ ⟨held₁, progress₁⟩
      refine (repeats.ends_both regular subset isOpen isFirst isSecond held₁
        (progress₁.pending.trans samePending)).mono ?_
      rintro _ s₂ ⟨held₂, progress₂⟩
      refine ⟨held₂, progress₁.trans progress₂, fun tame => absurd tame ?_⟩
      exact not_tame_of_parallel subset isOpen isDone isPending (.inl ⟨isFirst, isSecond⟩)
        (.inl ⟨first, second'⟩)
    · rw [if_neg parallel]
      exact repeats.ends_forth regular subset isOpen isFirst isSecond held samePending

theorem followsUp_followSecond {b : String} {first : Argument} (isDone : c ∈ done)
    (isPending : c.title ∈ pending) (second : c.second = .synonym b)
    (offers : Offers p kinds first c.first lefts)
    : FollowsUp subject p kinds all done pending b (followSecond again first b) := by
  intro t isOpen occurs s held samePending
  obtain ⟨a, d, isFirst, isSecond, atEnd, synonym, -⟩ := isOpen.ends regular subset occurs
  have spelled := regular.spelled t (subset t isOpen.1)
  unfold followSecond
  rw [conditionParts_title spelled isFirst isSecond]
  refine .bind (.pure ?_)
  dsimp only
  by_cases same : a = b
  · subst same
    rw [if_pos rfl]
    exact repeats.ends_forth regular subset isOpen isFirst isSecond held samePending
  · obtain rfl := atEnd.resolve_left same
    rw [if_neg same]
    refine .bind (offers.ends_head.mono ?_)
    rintro name _ ⟨rfl, named⟩
    by_cases parallel : a = name
    · have first' := (named a synonym).mp parallel
      rw [if_pos parallel]
      refine (repeats.ends_both regular subset isOpen isFirst isSecond held
        samePending).mono ?_
      rintro _ s₂ ⟨held₂, progress₂⟩
      refine ⟨held₂, progress₂, fun tame => absurd tame ?_⟩
      exact not_tame_of_parallel subset isOpen isDone isPending (.inl ⟨isFirst, isSecond⟩)
        (.inl ⟨first', second⟩)
    · rw [if_neg parallel]
      exact repeats.ends_back regular subset isOpen isFirst isSecond held samePending

end Following

end ProgramQuery.Evaluation

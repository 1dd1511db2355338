import ProgramQuery.Proofs.Evaluation.Combinations

/-! What is left in the end is exactly what the conditions allow together: by consistency where there
is no cycle, and otherwise because all combinations of the values left are tried.
-/

namespace ProgramQuery.Evaluation

open Text ProgramQuery.Relation

variable {p : Program} {kinds : String → Kind} {all : List Condition} {s s' : State}
  {subject : Subject} {c : Condition} {x : String} {e : Entity}

/-- The sheet holds the values that each synonym of the conditions can stand for if all conditions are
met together, and nothing for other synonyms. -/
structure Exact (p : Program) (kinds : String → Kind) (all : List Condition) (s : State)
    : Prop where
  solvable : ∃ choice, Meets p kinds all choice
  mentioned : ∀ c ∈ all, ∀ x ∈ c.synonyms, ∃ values, s.sheet.final? x = some (.set values)
    ∧ values.members.Nodup
    ∧ ∀ e, e ∈ values.members ↔ ∃ choice, Meets p kinds all choice ∧ choice x = e
  unmentioned : ∀ x, isSynonym x = true → (∀ c ∈ all, x ∉ c.synonyms) → s.sheet.final? x = none

/-- Where every value left is part of a choice that meets all conditions, the sheet is exact. -/
theorem Held.exact (held : Held p kinds all all s) (regular : Regular p kinds all)
    (solvable : ∃ choice, Meets p kinds all choice)
    (part : ∀ c ∈ all, ∀ x ∈ c.synonyms, ∀ e, s.sheet.Left p kinds x e →
      ∃ choice, Meets p kinds all choice ∧ choice x = e)
    : Exact p kinds all s where
  solvable := solvable
  mentioned c member x occurs := by
    obtain ⟨values, found⟩ := held.exists_final regular (fun _ member => member) member occurs
    have isLeft {e : Entity} : s.sheet.Left p kinds x e ↔ e ∈ values.members :=
      Sheet.Sound.left_of_final found
    refine ⟨values, found, ?_, fun e => ⟨fun inValues => ?_, ?_⟩⟩
    · exact (held.inv.sound.fits x values (regular.spelled c member x occurs) found).1
    · exact part c member x occurs e (isLeft.mpr inValues)
    · rintro ⟨choice, meets, rfl⟩
      exact isLeft.mp (held.inv.complete choice meets c member x occurs)
  unmentioned x synonym absent := by
    cases found : s.sheet.final? x with
    | none => rfl
    | some cell =>
      have row : x ∈ s.sheet.cells.rowNames := Grid.mem_rowNames_of_mem_columnsOf
        (Grid.mem_columnsOf_iff.mpr (Option.isSome_iff_exists.mpr ⟨cell, found⟩))
      rcases held.inv.rows x row with same | same | ⟨c, member, occurs⟩
      · exact absurd same (synonym_ne_truthRow synonym)
      · exact absurd same (synonym_ne_fixedRow synonym)
      · exact absurd occurs (absent c member)

/-- Where there is no cycle, values that agree with all conditions can be put together. -/
theorem Solved.exists_choice (solved : Solved p kinds all s) (regular : Regular p kinds all)
    (sound : s.sheet.Sound p kinds) (unique : all.Nodup) (tame : Tame all)
    (value : ∀ c ∈ all, x ∈ c.synonyms → s.sheet.Left p kinds x e)
    : ∃ choice, Meets p kinds all choice ∧ choice x = e := by
  -- synonyms that no condition mentions may stand for anything
  let values (y : String) (e : Entity) : Prop := ∀ c ∈ all, y ∈ c.synonyms → s.sheet.Left p kinds y e
  have consistent (c : Condition) (member : c ∈ all) : Consistent p values c := by
    intro y z joins e isValue
    obtain ⟨e', left, relates⟩ := solved.consistent c member y z joins e
      (isValue c member joins.mem_synonyms.1)
    exact ⟨e', fun _ _ _ => left, relates⟩
  have inhabited (y : String) : ∃ e, values y e := by
    by_cases mentioned : ∃ c ∈ all, y ∈ c.synonyms
    · obtain ⟨c, member, occurs⟩ := mentioned
      obtain ⟨e, left⟩ := solved.inhabited y (regular.spelled c member y occurs)
        (.inl ⟨c, member, occurs⟩)
      exact ⟨e, fun _ _ _ => left⟩
    · exact ⟨.missing, fun c member occurs => absurd ⟨c, member, occurs⟩ mentioned⟩
  have linked (c : Condition) (member : c ∈ all.filter (·.link?.isSome))
      : ∃ y z, c.Joins y z :=
    Condition.exists_joins_iff.mpr (List.mem_filter.mp member).2
  obtain ⟨choice, same, isValue, relates⟩ := ProgramQuery.exists_choice linked (unique.filter _)
    (tame.mono fun c member => (List.mem_filter.mp member).1)
    (fun c member => consistent c (List.mem_filter.mp member).1) inhabited value
  refine ⟨choice, ⟨fun c member y occurs => ?_, fun c member => ?_⟩, same⟩
  · exact sound.left_fits (regular.spelled c member y occurs) (isValue y c member occurs)
  · cases isLink : c.link? with
    | none =>
      have range {term : Term} (occurs : ∀ y, term = .synonym y → y ∈ c.synonyms)
          : term.Range (s.sheet.Left p kinds) (term.value choice) := by
        cases term with
        | synonym y => exact isValue y c member (occurs y rfl)
        | line n => rfl
      exact solved.numbers c member isLink _ _
        (range fun y first => Condition.mem_synonyms.mpr (.inl first))
        (range fun y second => Condition.mem_synonyms.mpr (.inr second))
    | some link =>
      obtain ⟨a, b, first, second⟩ := Condition.link?_isSome.mp (by rw [isLink]; rfl)
      have differs : a ≠ b := by
        rintro rfl
        exact regular.apart c member a first second
      have relates := relates c (List.mem_filter.mpr ⟨member, by rw [isLink]; rfl⟩) a b
        (.inl ⟨first, second⟩)
      simpa [Condition.Relates, first, second, differs, Term.value] using relates

theorem Settled.exact (settled : Settled p kinds all all s) (regular : Regular p kinds all)
    (unique : all.Nodup) (tame : Tame all)
    : Exact p kinds all s := by
  have solved := settled.solved tame
  have sound := settled.held.inv.sound
  refine settled.held.exact regular ?_ fun c member x occurs e left =>
    solved.exists_choice regular sound unique tame fun _ _ _ => left
  -- the empty text is no synonym
  obtain ⟨choice, meets, -⟩ := solved.exists_choice (x := "") (e := .missing) regular sound unique
    tame fun c member occurs => absurd (regular.spelled c member "" occurs) (by decide)
  exact ⟨choice, meets⟩

section Cycle

variable (held : Held p kinds all all s) (regular : Regular p kinds all)
include held regular

/-- The rows beside those of the truth and of the fixed arguments are those of the synonyms. -/
theorem Held.mem_synonyms : x ∈ s.sheet.synonyms ↔ ∃ c ∈ all, x ∈ c.synonyms := by
  rw [Sheet.mem_synonyms held.inv.sound.orderly]
  constructor
  · rintro ⟨notFixed, notTruth, row⟩
    exact ((held.inv.rows x row).resolve_left notTruth).resolve_left notFixed
  · rintro ⟨c, member, occurs⟩
    have synonym := regular.spelled c member x occurs
    exact ⟨synonym_ne_fixedRow synonym, synonym_ne_truthRow synonym,
      held.recorded.row member occurs⟩

theorem Held.exists_values (member : x ∈ s.sheet.synonyms)
    : isSynonym x = true ∧ ∃ values, s.sheet.final? x = some (.set values) := by
  obtain ⟨c, member, occurs⟩ := (held.mem_synonyms regular).mp member
  exact ⟨regular.spelled c member x occurs,
    held.exists_final regular (fun _ member => member) member occurs⟩

theorem Held.keeps_iff (member : x ∈ s.sheet.synonyms)
    : s.sheet.Keeps x e ↔ s.sheet.Left p kinds x e := by
  obtain ⟨-, values, found⟩ := held.exists_values regular member
  rw [Sheet.keeps_iff found, Sheet.Sound.left_of_final found]

theorem Held.tidy : s.sheet.Tidy where
  orderly := held.inv.sound.orderly
  truth := held.inv.sound.truth
  final x member := by
    obtain ⟨synonym, values, found⟩ := held.exists_values regular member
    exact ⟨values, found, (held.inv.sound.fits x values synonym found).1⟩
  allowed x member e kept column values read := by
    obtain ⟨synonym, -⟩ := held.exists_values regular member
    have row := ((Sheet.mem_synonyms held.inv.sound.orderly).mp member).2.2
    have notType : column ≠ Sheet.typeColumn := by
      rintro rfl
      rw [held.inv.sound.types x row synonym] at read
      cases read
    obtain ⟨values, final, same, found, subset⟩ :=
      held.inv.sound.sets x column _ synonym notType read
    cases same
    exact subset e ((Sheet.keeps_iff found).mp kept)

/-- The choices that take their values out of what is left are all choices that meet the conditions. -/
theorem Held.solves_iff {choice : String → Entity}
    : Solves s.sheet (p.Holds ·.relation) all choice ↔ Meets p kinds all choice := by
  constructor
  · refine fun solves => ⟨fun c member x occurs => ?_, solves.related⟩
    have isSynonym := (held.mem_synonyms regular).mpr ⟨c, member, occurs⟩
    exact held.inv.sound.left_fits (regular.spelled c member x occurs)
      ((held.keeps_iff regular isSynonym).mp (solves.kept x isSynonym))
  · refine fun meets => ⟨fun x isSynonym => ?_, meets.holds⟩
    obtain ⟨c, member, occurs⟩ := (held.mem_synonyms regular).mp isSynonym
    exact (held.keeps_iff regular isSynonym).mpr (held.inv.complete choice meets c member x occurs)

/-- Trying all combinations leaves exactly what the conditions allow together. -/
theorem Held.ends_resolveCycle (setting : Setting p subject.knowledge)
    (linked : ∀ c ∈ all, c.link?.isSome = true)
    : Ends subject (Unsolvable p kinds all) s (resolveCycle (all.map (·.tree kinds))) fun _ s' =>
        Exact p kinds all s' ∧ s'.sheet.selected = s.sheet.selected := by
  have unsolvable : (¬ ∃ choice, Solves s.sheet (p.Holds ·.relation) all choice) = Unsolvable p kinds all := by
    simp only [Unsolvable, held.solves_iff regular]
  have ends := @Evaluation.ends_resolveCycle kinds all s subject (p.Holds ·.relation) (held.tidy regular) ?_
  · simp only [held.solves_iff regular] at ends
    refine ends.mono fun _ s' ⟨solvable, tidy, selected, synonyms, keeps⟩ =>
      ⟨⟨solvable, fun c member x occurs => ?_, fun x synonym absent => ?_⟩, selected⟩
    · have isSynonym := (held.mem_synonyms regular).mpr ⟨c, member, occurs⟩
      obtain ⟨values, found, unique⟩ := tidy.final x ((synonyms x).mpr isSynonym)
      exact ⟨values, found, unique, fun e => by rw [← keeps x isSynonym, Sheet.keeps_iff found]⟩
    · cases found : s'.sheet.final? x with
      | none => rfl
      | some cell =>
        have row : x ∈ s'.sheet.cells.rowNames := Grid.mem_rowNames_of_mem_columnsOf
          (Grid.mem_columnsOf_iff.mpr (Option.isSome_iff_exists.mpr ⟨cell, found⟩))
        have isSynonym := (synonyms x).mp ((Sheet.mem_synonyms tidy.orderly).mpr
          ⟨synonym_ne_fixedRow synonym, synonym_ne_truthRow synonym, row⟩)
        obtain ⟨c, member, occurs⟩ := (held.mem_synonyms regular).mp isSynonym
        exact absurd occurs (absent c member)
  · intro c member
    obtain ⟨a, b, first, second⟩ := Condition.link?_isSome.mp (linked c member)
    obtain ⟨m, known, -, exact_⟩ := setting.modes_exact (regular.allowed c member)
    have isSynonym {x : String} (occurs : x ∈ c.synonyms) :=
      (held.mem_synonyms regular).mpr ⟨c, member, occurs⟩
    have isFirst := isSynonym (Condition.mem_synonyms.mpr (.inl first))
    have isSecond := isSynonym (Condition.mem_synonyms.mpr (.inr second))
    have fits {x : String} (isSynonym : x ∈ s.sheet.synonyms) {v : Entity}
        (kept : s.sheet.Keeps x v) : p.Fits (kinds x) v :=
      held.inv.sound.left_fits (held.exists_values regular isSynonym).1
        ((held.keeps_iff regular isSynonym).mp kept)
    refine ⟨a, isFirst, b, isSecond, first, second, m, modes_eq_ok known, fun v w kept kept' => ?_⟩
    have firstKind : c.firstKind kinds = kinds a := by simp [Condition.firstKind, first, Term.synonym?]
    have secondKind : c.secondKind kinds = kinds b := by
      simp [Condition.secondKind, second, Term.synonym?]
    rw [unsolvable]
    refine (exact_.member ?_ ?_ (.inl rfl) (.inl rfl)).because
      (regular.unsolvable_of_unrelated member)
    · exact .inl (firstKind ▸ fits isFirst kept)
    · exact .inl (secondKind ▸ fits isSecond kept')

end Cycle

end ProgramQuery.Evaluation

import ProgramQuery.Proofs.Evaluation.Solutions

/-! The answer read off a sheet lists what the selected synonym can stand for, each thing once. -/

namespace ProgramQuery

open Text ProgramQuery.Relation Evaluation

variable {p : Program} {knowledge : KnowledgeBase} {kinds : String → Kind} {q : JoinQuery}

/-- A text lists the things with a property, each once. -/
def Lists (text : String) (property : Entity → Prop) : Prop :=
  ∃ values : List Entity, text = Sheet.listed (values.map Entity.text) ∧ values.Nodup
    ∧ ∀ e, e ∈ values ↔ property e

theorem Lists.congr {text : String} {property property' : Entity → Prop}
    (lists : Lists text property) (same : ∀ e, property e ↔ property' e)
    : Lists text property' := by
  obtain ⟨values, written, unique, members⟩ := lists
  exact ⟨values, written, unique, fun e => (members e).trans (same e)⟩

theorem map_text_lines (ns : List Int) : (lines ns).map Entity.text = ns.map showInt := by
  simp [lines, Entity.text]

theorem map_text_names (xs : List String) : (names xs).map Entity.text = xs := by
  simp [names, Function.comp_def, Entity.text]

theorem nodup_lines {ns : List Int} (unique : ns.Nodup) : (lines ns).Nodup :=
  unique.map fun _ _ same => Entity.line.inj same

theorem nodup_names {xs : List String} (unique : xs.Nodup) : (names xs).Nodup :=
  unique.map fun _ _ same => Entity.name.inj same

theorem KnowledgeBase.nodup_statementLines : knowledge.statementLines.Nodup :=
  List.nodup_range.map fun m n (same : (m : Int) + 1 = n + 1) => by omega

section Described

variable (describes : knowledge.Describes p)
include describes

theorem KnowledgeBase.Describes.nodup_linesOfKind (kind : String)
    : (knowledge.linesOfKind kind).Nodup := by
  have lines : knowledge.statements.map (·.line) = (List.range' 1 p.size).map Int.ofNat := by
    rw [describes.statements, Program.statementEntries, List.map_map, ← p.listing_lines,
      List.map_map]
    rfl
  have unique : (knowledge.statements.map (·.line)).Nodup := by
    rw [lines]
    exact (List.nodup_range' ..).map fun _ _ => Int.ofNat.inj
  exact (List.filter_sublist.map _).nodup unique

theorem KnowledgeBase.Describes.nodup_procedureNames
    (distinct : (p.procedures.map (·.name)).Nodup)
    : knowledge.procedureNames.Nodup := by
  have names : knowledge.procedureNames = p.procedures.map (·.name) := by
    rw [KnowledgeBase.procedureNames, describes.procedures, Program.procedureEntries, List.map_map,
      ← Program.map_starts 1 p.procedures, List.map_map]
    rfl
  rwa [names]

theorem KnowledgeBase.Describes.nodup_variableNames : knowledge.variableNames.Nodup := by
  rw [describes.variableNames, Program.variableNames]
  exact (List.mergeSort_perm ..).nodup_iff.mpr (nodup_eraseDups _)

theorem KnowledgeBase.Describes.lists_variableNames
    : Lists (Sheet.listed knowledge.variableNames) (p.Fits .variable) := by
  refine ⟨names knowledge.variableNames, by rw [map_text_names],
    nodup_names describes.nodup_variableNames, fun e => ?_⟩
  simp only [names, List.mem_map, describes.mem_variableNames]
  constructor
  · rintro ⟨x, fits, rfl⟩
    exact fits
  · intro fits
    obtain ⟨x, rfl⟩ := fits.exists_name (.inr rfl)
    exact ⟨x, fits, rfl⟩

theorem KnowledgeBase.Describes.exists_everything
    (distinct : (p.procedures.map (·.name)).Nodup) (kind : Kind)
    : ∃ text, Sheet.everything knowledge kind.label = .ok text ∧ Lists text (p.Fits kind) := by
  have ofLines (ns : List Int) (unique : ns.Nodup) (members : ∀ e, e ∈ lines ns ↔ p.Fits kind e)
      : Lists (Sheet.listed (ns.map showInt)) (p.Fits kind) :=
    ⟨lines ns, by rw [map_text_lines], nodup_lines unique, members⟩
  have ofNames (xs : List String) (unique : xs.Nodup) (members : ∀ e, e ∈ names xs ↔ p.Fits kind e)
      : Lists (Sheet.listed xs) (p.Fits kind) :=
    ⟨names xs, by rw [map_text_names], nodup_names unique, members⟩
  by_cases isVariable : kind = .variable
  · subst isVariable
    exact ⟨_, rfl, describes.lists_variableNames⟩
  · have candidates (e : Entity) := describes.mem_candidates isVariable (e := e)
    match kind with
    | .procedure => exact ⟨_, rfl, ofNames _ (describes.nodup_procedureNames distinct) candidates⟩
    | .statement => exact ⟨_, rfl, ofLines _ KnowledgeBase.nodup_statementLines candidates⟩
    | .variable => exact absurd rfl isVariable
    | .assignment | .loop | .branch | .call =>
      exact ⟨_, rfl, ofLines _ (describes.nodup_linesOfKind _) candidates⟩

end Described

/-- A synonym that no condition mentions stands for anything of its kind. -/
theorem JoinQuery.selects_iff_fits (solvable : ∃ choice, Meets p q.kinds q.conditions choice)
    (unmentioned : ∀ c ∈ q.conditions, q.selected ∉ c.synonyms) {e : Entity}
    : q.Selects p e ↔ p.Fits (q.kinds q.selected) e := by
  constructor
  · rintro ⟨choice, -, fits, rfl⟩
    exact fits
  · intro fits
    obtain ⟨choice, meets⟩ := solvable
    have elsewhere : ∀ c ∈ q.conditions, ∀ x ∈ c.synonyms,
        choice x = Function.update choice q.selected e x := by
      intro c member x occurs
      rw [Function.update_of_ne]
      rintro rfl
      exact unmentioned c member occurs
    refine ⟨Function.update choice q.selected e, meets.congr elsewhere, ?_, ?_⟩
    · rwa [Function.update_self]
    · rw [Function.update_self]

theorem Evaluation.Exact.exists_answer {s : State}
    (exact_ : Exact p q.kinds q.conditions s) (describes : knowledge.Describes p)
    (distinct : (p.procedures.map (·.name)).Nodup) (synonym : isSynonym q.selected = true)
    (selected : s.sheet.selected = ((q.kinds q.selected).label, q.selected))
    : ∃ text, s.sheet.answer knowledge = .ok text ∧ Lists text (q.Selects p) := by
  unfold Sheet.answer
  rw [selected]
  dsimp only
  by_cases mentioned : ∃ c ∈ q.conditions, q.selected ∈ c.synonyms
  · obtain ⟨c, member, occurs⟩ := mentioned
    obtain ⟨values, found, unique, members⟩ := exact_.mentioned c member _ occurs
    rw [found, Option.bind_some, if_neg (synonym_ne_truthRow synonym)]
    refine ⟨_, rfl, values.members, rfl, unique, fun e => (members e).trans ?_⟩
    constructor
    · rintro ⟨choice, meets, same⟩
      exact ⟨choice, meets, meets.fits c member _ occurs, same⟩
    · rintro ⟨choice, meets, -, same⟩
      exact ⟨choice, meets, same⟩
  · have unmentioned : ∀ c ∈ q.conditions, q.selected ∉ c.synonyms :=
      fun c member occurs => mentioned ⟨c, member, occurs⟩
    rw [exact_.unmentioned _ synonym unmentioned, Option.bind_none]
    obtain ⟨text, listed, lists⟩ := describes.exists_everything distinct (q.kinds q.selected)
    exact ⟨text, listed, lists.congr fun e =>
      (JoinQuery.selects_iff_fits exact_.solvable unmentioned).symm⟩

end ProgramQuery

import ProgramQuery.Proofs.Evaluation.Solving
import ProgramQuery.Proofs.Relation.EffectAgreement
import ProgramQuery.Session

/-! Trying all combinations of the values left to the synonyms. Conditions between synonyms are then met
exactly, whatever the values on the sheet are and whether they are held as numbers or as texts.
-/

namespace ProgramQuery

open Text ProgramQuery.Relation

namespace Sheet

variable {s : Sheet} {x y : String} {e : Entity} {values : EntitySet}

def synonyms (s : Sheet) : List String :=
  (s.cells.rowNames.erase truthRow).erase fixedRow

def Keeps (s : Sheet) (x : String) (e : Entity) : Prop :=
  ∃ values, s.final? x = some (.set values) ∧ e ∈ values.members

/-- A sheet on which each synonym has a set of values left, and everything recorded for it allows
them. -/
structure Tidy (s : Sheet) : Prop where
  orderly : s.cells.Orderly
  truth : truthRow ∈ s.cells.rowNames
  final : ∀ x ∈ s.synonyms, ∃ values, s.final? x = some (.set values) ∧ values.members.Nodup
  allowed : ∀ x ∈ s.synonyms, ∀ e, s.Keeps x e → ∀ column values,
    s.cells.cell? x column = some (.set values) → e ∈ values.members

theorem mem_synonyms (orderly : s.cells.Orderly)
    : x ∈ s.synonyms ↔ x ≠ fixedRow ∧ x ≠ truthRow ∧ x ∈ s.cells.rowNames := by
  rw [synonyms, (orderly.rows.erase _).mem_erase_iff, orderly.rows.mem_erase_iff]

theorem keeps_iff (found : s.final? x = some (.set values)) : s.Keeps x e ↔ e ∈ values.members := by
  simp [Keeps, found]

/-- Replacing the values left to a synonym by some of them. -/
theorem Tidy.narrowed (tidy : s.Tidy) (member : x ∈ s.synonyms) (unique : values.members.Nodup)
    (inside : ∀ e ∈ values.members, s.Keeps x e)
    : (s.narrowed finalColumn x values).Tidy
      ∧ (∀ y, y ∈ (s.narrowed finalColumn x values).synonyms ↔ y ∈ s.synonyms)
      ∧ ∀ y ∈ s.synonyms, ∀ e, (s.narrowed finalColumn x values).Keeps y e
        ↔ s.Keeps y e ∧ (y = x → e ∈ values.members) := by
  obtain ⟨-, -, row⟩ := (mem_synonyms tidy.orderly).mp member
  have orderly : (s.narrowed finalColumn x values).cells.Orderly :=
    (((tidy.orderly.put _ _ _).put _ _ _).put _ _ _).put _ _ _
  have same (y : String) : y ∈ (s.narrowed finalColumn x values).synonyms ↔ y ∈ s.synonyms := by
    rw [mem_synonyms orderly, mem_synonyms tidy.orderly, mem_rowNames_narrowed row tidy.truth]
  have cells {y : String} (isSynonym : y ∈ s.synonyms) (column : String)
      : (s.narrowed finalColumn x values).cells.cell? y column
        = if x = y ∧ column = finalColumn then some (.set (s.leftover finalColumn x values))
          else s.cells.cell? y column := by
    rw [cell?_narrowed ((mem_synonyms tidy.orderly).mp isSynonym).2.1]
    grind
  have left (e : Entity)
      : e ∈ (s.leftover finalColumn x values).members ↔ e ∈ values.members := by
    rw [mem_leftover tidy.orderly row]
    exact and_iff_left_of_imp fun isValue column set _ read =>
      tidy.allowed x member e (inside e isValue) column set read
  have keeps {y : String} (isSynonym : y ∈ s.synonyms) (e : Entity)
      : (s.narrowed finalColumn x values).Keeps y e
        ↔ s.Keeps y e ∧ (y = x → e ∈ values.members) := by
    by_cases self : x = y
    · subst self
      rw [keeps_iff (by rw [final?, cells isSynonym, if_pos ⟨rfl, rfl⟩]), left]
      simp only [true_implies]
      exact (and_iff_right_of_imp (inside e)).symm
    · rw [Keeps, final?, cells isSynonym, if_neg (self ·.1)]
      exact (and_iff_left fun isSelf => absurd isSelf.symm self).symm
  refine ⟨⟨orderly, (mem_rowNames_narrowed row tidy.truth).mpr tidy.truth, ?_, ?_⟩, same,
    fun y isSynonym => keeps isSynonym⟩
  · intro y isSynonym
    rw [same] at isSynonym
    rw [final?, cells isSynonym]
    split
    · exact ⟨_, rfl, nodup_agreed unique⟩
    · exact tidy.final y isSynonym
  · intro y isSynonym e kept column set read
    rw [same] at isSynonym
    obtain ⟨before, now⟩ := (keeps isSynonym e).mp kept
    rw [cells isSynonym] at read
    split at read
    next isFinal =>
      obtain rfl : s.leftover finalColumn x values = set := by simpa using read
      exact (left e).mpr (now isFinal.1.symm)
    next => exact tidy.allowed y isSynonym e before column set read

end Sheet

namespace Evaluation

variable {kinds : String → Kind} {all : List Condition} {s : State} {subject : Subject}
  {c : Condition} {x : String} {e : Entity} {ranges : List (String × List Entity)}

/-- A choice takes a value for each synonym out of what it can be. -/
def Takes (ranges : List (String × List Entity)) (choice : Choice) : Prop :=
  List.Forall₂ (fun range entry => entry.1 = range.1 ∧ entry.2 ∈ range.2) ranges choice

/-- The choices found are those that take a value for each synonym and pass the test. -/
theorem answers_passing {reason : Prop} {test : Choice → Asked Bool} {good : Choice → Prop}
    {taken : Choice}
    (tested : ∀ rest, Takes ranges rest →
      Answers reason (test (taken ++ rest)) fun passes => passes = true ↔ good (taken ++ rest))
    : Answers reason (passing test ranges taken) fun choices => ∀ choice, choice ∈ choices
        ↔ ∃ rest, choice = taken ++ rest ∧ Takes ranges rest ∧ good choice := by
  induction ranges generalizing taken with
  | nil =>
    unfold passing
    have tested := tested [] .nil
    rw [List.append_nil] at tested
    refine tested.bind fun passes isGood => .ok fun choice => ?_
    simp only [Takes, List.forall₂_nil_left_iff]
    cases passes with
    | true =>
      have := isGood.mp rfl
      constructor
      · intro member
        obtain rfl : choice = taken := by simpa using member
        exact ⟨[], by simp, rfl, this⟩
      · rintro ⟨rest, rfl, rfl, -⟩
        simp
    | false =>
      have : ¬ good taken := fun passes => by simpa using isGood.mpr passes
      constructor
      · intro member
        simp at member
      · rintro ⟨rest, rfl, rfl, passes⟩
        exact absurd (by simpa using passes) this
  | cons range rest ih =>
    obtain ⟨x, values⟩ := range
    unfold passing
    have each (value : Entity) (member : value ∈ values)
        : Answers reason (passing test rest (taken ++ [(x, value)])) fun choices =>
            ∀ choice, choice ∈ choices ↔ ∃ choice', choice = taken ++ [(x, value)] ++ choice'
              ∧ Takes rest choice' ∧ good choice := by
      refine ih fun choice takes => ?_
      rw [List.append_assoc]
      exact tested _ (.cons ⟨rfl, member⟩ takes)
    refine (Answers.mapM each).bind fun found all => .ok fun choice => ?_
    have paired := mem_of_forall₂ all
    rw [List.mem_flatten]
    constructor
    · rintro ⟨choices, isFound, member⟩
      obtain ⟨value, isValue, exact_⟩ := paired.2 choices isFound
      obtain ⟨choice', rfl, takes, isGood⟩ := (exact_ choice).mp member
      exact ⟨(x, value) :: choice', by simp, .cons ⟨rfl, isValue⟩ takes, isGood⟩
    · rintro ⟨choice', rfl, takes, isGood⟩
      cases takes with
      | @cons _ entry _ choice' first takes =>
        obtain ⟨x', value⟩ := entry
        obtain ⟨rfl, isValue⟩ : x' = x ∧ value ∈ values := first
        obtain ⟨choices, isFound, exact_⟩ := paired.1 value isValue
        exact ⟨choices, isFound, (exact_ _).mpr ⟨choice', by simp, takes, isGood⟩⟩

def pick (choice : Choice) (x : String) : Entity :=
  (choice.get? x).getD .missing

theorem Takes.exists_get? {choice : Choice}
    (takes : Takes ranges choice) (member : x ∈ ranges.map (·.1))
    : ∃ e, choice.get? x = some e ∧ ∃ range ∈ ranges, range.1 = x ∧ e ∈ range.2 := by
  induction takes with
  | nil => simp at member
  | @cons range entry ranges choice first takes ih =>
    obtain ⟨key, value⟩ := entry
    obtain ⟨rfl, inRange⟩ : key = range.1 ∧ value ∈ range.2 := first
    by_cases same : range.1 = x
    · exact ⟨value, by simp [Keyed.get?, same], range, by simp, same, inRange⟩
    · have inRest : x ∈ ranges.map (·.1) :=
        (List.mem_cons.mp member).resolve_left fun isFirst => same isFirst.symm
      obtain ⟨e, found, range', member', rest⟩ := ih inRest
      exact ⟨e, by simp [Keyed.get?, same, found], range', by simp [member'], rest⟩

theorem get?_map {names : List String} {f : String → Entity} (member : x ∈ names)
    : Keyed.get? (names.map fun y => (y, f y)) x = some (f x) := by
  induction names with
  | nil => simp at member
  | cons name rest ih =>
    by_cases same : name = x
    · simp [Keyed.get?, same]
    · simpa [Keyed.get?, same] using
        ih ((List.mem_cons.mp member).resolve_left fun isFirst => same isFirst.symm)

theorem allM_map {α β : Type} {f : β → Asked Bool} {g : α → β} {xs : List α}
    : (xs.map g).allM f = xs.allM fun x => f (g x) := by
  induction xs with
  | nil => rfl
  | cons x rest ih => simp only [List.map_cons, List.allM, ih]

/-- One value for each synonym out of those left to it, related as all conditions say. -/
structure Solves (s : Sheet) (related : Condition → Entity → Entity → Prop) (all : List Condition)
    (choice : String → Entity)
    : Prop where
  kept : ∀ x ∈ s.synonyms, s.Keeps x (choice x)
  related : ∀ c ∈ all, related c (c.first.value choice) (c.second.value choice)

section Cycle

variable {related : Condition → Entity → Entity → Prop} (tidy : s.sheet.Tidy)
  (asks : ∀ c ∈ all, ∃ a ∈ s.sheet.synonyms, ∃ b ∈ s.sheet.synonyms, c.first = .synonym a
    ∧ c.second = .synonym b ∧ ∃ m, modes subject.knowledge c.relation.title = .ok m
    ∧ ∀ v w, s.sheet.Keeps a v → s.sheet.Keeps b w →
      Answers (¬ ∃ choice, Solves s.sheet related all choice) (m.memberMember v w)
        fun holds => holds = true ↔ related c v w)
include asks

/-- The choices found are those that meet all conditions. -/
theorem answers_choices (listed : ranges.map (·.1) = s.sheet.synonyms)
    (kept : ∀ range ∈ ranges, ∀ e, e ∈ range.2 ↔ s.sheet.Keeps range.1 e)
    : Answers (¬ ∃ choice, Solves s.sheet related all choice)
        (passing (fun choice => ((all.map (·.tree kinds)).map
          (Demand.ofCondition subject.knowledge)).allM (Demand.met · choice)) ranges [])
        fun choices => ∀ choice, choice ∈ choices
          ↔ Takes ranges choice ∧ Solves s.sheet related all (pick choice) := by
  have picked {choice : Choice} (takes : Takes ranges choice) (x : String)
      (isSynonym : x ∈ s.sheet.synonyms)
      : choice.get? x = some (pick choice x) ∧ s.sheet.Keeps x (pick choice x) := by
    obtain ⟨e, found, range, inRanges, rfl, inRange⟩ := takes.exists_get? (listed ▸ isSynonym)
    rw [pick, found]
    exact ⟨rfl, (kept range inRanges e).mp inRange⟩
  let good (choice : Choice) : Prop := ∀ c ∈ all,
    related c (c.first.value (pick choice)) (c.second.value (pick choice))
  refine (answers_passing fun choice takes => ?_ : Answers _ _ fun choices => ∀ choice,
    choice ∈ choices ↔ ∃ rest, choice = [] ++ rest ∧ Takes ranges rest ∧ good choice).mono
    fun choices exact_ choice => ?_
  · rw [List.map_map, allM_map]
    refine .allM fun c member => ?_
    obtain ⟨a, isSynonym, b, isSynonym', first, second, m, known, answers⟩ := asks c member
    obtain ⟨found, isKept⟩ := picked takes a isSynonym
    obtain ⟨found', isKept'⟩ := picked takes b isSynonym'
    have met : Demand.met (Demand.ofCondition subject.knowledge (c.tree kinds)) choice
        = m.memberMember (pick choice a) (pick choice b) := by
      unfold Demand.met Demand.ofCondition
      rw [Condition.tree, first, second]
      change (do
        let d ← (do
          let m ← modes subject.knowledge c.relation.title
          pure (Demand.mk a b m.memberMember))
        let x ← chosen choice d.first
        let y ← chosen choice d.second
        d.holds x y : Asked Bool) = _
      rw [known]
      change (do
        let x ← chosen choice a
        let y ← chosen choice b
        m.memberMember x y : Asked Bool) = _
      rw [chosen, chosen, found, found']
      rfl
    rw [Function.comp_apply, List.nil_append, met, first, second]
    exact answers _ _ isKept isKept'
  · rw [exact_]
    constructor
    · rintro ⟨_, rfl, takes, holds⟩
      exact ⟨takes, fun x isSynonym => (picked takes x isSynonym).2, holds⟩
    · rintro ⟨takes, solves⟩
      exact ⟨choice, rfl, takes, solves.related⟩

/-- Every choice that meets all conditions is among those found. -/
theorem mem_found {choices : List Choice}
    (listed : ranges.map (·.1) = s.sheet.synonyms)
    (kept : ∀ range ∈ ranges, ∀ e, e ∈ range.2 ↔ s.sheet.Keeps range.1 e)
    (found : ∀ choice, choice ∈ choices
      ↔ Takes ranges choice ∧ Solves s.sheet related all (pick choice))
    (isSynonym : x ∈ s.sheet.synonyms)
    : e ∈ choices.filterMap (·.get? x)
      ↔ ∃ choice, Solves s.sheet related all choice ∧ choice x = e := by
  rw [List.mem_filterMap]
  constructor
  · rintro ⟨choice, isFound, read⟩
    refine ⟨pick choice, ((found choice).mp isFound).2, ?_⟩
    rw [pick, read, Option.getD_some]
  · rintro ⟨choice, solves, rfl⟩
    let written : Choice := s.sheet.synonyms.map fun y => (y, choice y)
    have same {y : String} (isSynonym : y ∈ s.sheet.synonyms) : pick written y = choice y := by
      rw [pick, get?_map isSynonym, Option.getD_some]
    refine ⟨written, (found written).mpr ⟨?_, ?_, fun c member => ?_⟩, get?_map isSynonym⟩
    · simp only [written, ← listed, List.map_map]
      refine List.forall₂_map_right_iff.mpr (List.forall₂_same.mpr fun range inRanges => ⟨rfl, ?_⟩)
      exact (kept range inRanges _).mpr (solves.kept _ (listed ▸ List.mem_map_of_mem inRanges))
    · intro y isSynonym
      rw [same isSynonym]
      exact solves.kept y isSynonym
    · obtain ⟨a, isSynonym, b, isSynonym', first, second, -⟩ := asks c member
      have related := solves.related c member
      rw [first, second] at related ⊢
      rwa [Term.value, Term.value, same isSynonym, same isSynonym']

include tidy in
/-- Trying all combinations leaves to each synonym what it has in the choices that meet all conditions. It
fails if there is no such choice. -/
theorem ends_resolveCycle
    : Ends subject (¬ ∃ choice, Solves s.sheet related all choice) s
        (resolveCycle (all.map (·.tree kinds))) fun _ s' =>
          (∃ choice, Solves s.sheet related all choice)
          ∧ s'.sheet.Tidy ∧ s'.sheet.selected = s.sheet.selected
          ∧ (∀ x, x ∈ s'.sheet.synonyms ↔ x ∈ s.sheet.synonyms)
          ∧ ∀ x ∈ s.sheet.synonyms, ∀ e, s'.sheet.Keeps x e
            ↔ ∃ choice, Solves s.sheet related all choice ∧ choice x = e := by
  unfold resolveCycle
  refine .bind (.read (.bind (.sheet ?_)))
  refine .bind ((Ends.mapM fun x member => ?_ : Ends _ _ s _ fun ranges s' => s' = s
    ∧ List.Forall₂ (fun x range => range.1 = x ∧ ∀ e, e ∈ range.2 ↔ s.sheet.Keeps x e)
      s.sheet.synonyms ranges).mono ?_)
  · obtain ⟨values, found, -⟩ := tidy.final x member
    refine .bind (.bind (.sheet (.bind (.ask ?_))))
    rw [cell_eq_ok found]
    exact ⟨rfl, rfl, fun e => (Sheet.keeps_iff found).symm⟩
  rintro ranges s₀ ⟨same, taken⟩
  subst s₀
  have listed : ranges.map (·.1) = s.sheet.synonyms := by
    generalize s.sheet.synonyms = synonyms at taken
    induction taken with
    | nil => rfl
    | cons first _ ih => rw [List.map_cons, first.1, ih]
  have kept (range : String × List Entity) (inRanges : range ∈ ranges) (e : Entity)
      : e ∈ range.2 ↔ s.sheet.Keeps range.1 e := by
    obtain ⟨x, -, rfl, kept⟩ := (mem_of_forall₂ taken).2 range inRanges
    exact kept e
  refine .bind (.ask ((answers_choices asks listed kept).mono fun choices found => ?_))
  have exact_ {x : String} (isSynonym : x ∈ s.sheet.synonyms) (e : Entity) :=
    mem_found (e := e) asks listed kept found isSynonym
  let invariant (through : List String) (s' : State) : Prop :=
    s'.sheet.Tidy ∧ s'.sheet.selected = s.sheet.selected
    ∧ (∀ x, x ∈ s'.sheet.synonyms ↔ x ∈ s.sheet.synonyms)
    ∧ (∀ x ∈ s.sheet.synonyms, ∀ e, s'.sheet.Keeps x e
      ↔ s.sheet.Keeps x e ∧ (x ∈ through → e ∈ choices.filterMap (·.get? x)))
    ∧ ∀ x ∈ through, ∃ choice, Solves s.sheet related all choice
  refine .bind ((Ends.forIn_through (fun through x member s₁ holds => ?_)
    (show invariant [] s from ⟨tidy, rfl, fun _ => .rfl, by simp, by simp⟩)).mono ?_)
  · obtain ⟨tidy₁, selected₁, synonyms₁, keeps₁, solved₁⟩ := holds
    have isSynonym := (synonyms₁ x).mpr member
    obtain ⟨notFixed, -, row⟩ := (Sheet.mem_synonyms tidy₁.orderly).mp isSynonym
    have set_ (e : Entity) : e ∈ (EntitySet.ofList (choices.filterMap (·.get? x))).members
        ↔ e ∈ choices.filterMap (·.get? x) :=
      List.mem_eraseDups
    have unique : (EntitySet.ofList (choices.filterMap (·.get? x))).members.Nodup := nodup_eraseDups _
    refine .bind ((ends_narrowTo row notFixed ?_).mono ?_)
    · rintro none ⟨choice, solves⟩
      have := (exact_ member _).mpr ⟨choice, solves, rfl⟩
      rw [none] at this
      cases this
    · rintro - _ ⟨some_, rfl⟩
      obtain ⟨e, isFound⟩ := List.exists_mem_of_ne_nil _ some_
      obtain ⟨choice, solves, -⟩ := (exact_ member e).mp isFound
      obtain ⟨tidy₂, synonyms₂, keeps₂⟩ := tidy₁.narrowed isSynonym unique fun e isValue => by
        obtain ⟨choice, solves, rfl⟩ := (exact_ member e).mp ((set_ e).mp isValue)
        exact (keeps₁ x member _).mpr ⟨solves.kept x member, fun _ => (set_ _).mp isValue⟩
      refine .pure ⟨rfl, tidy₂, selected₁, fun y => (synonyms₂ y).trans (synonyms₁ y), ?_,
        fun _ _ => ⟨choice, solves⟩⟩
      intro y isSynonym' e
      rw [keeps₂ y ((synonyms₁ y).mpr isSynonym'), keeps₁ y isSynonym', set_, List.mem_append,
        List.mem_singleton]
      grind
  · rintro _ s₁ ⟨tidy₁, selected₁, synonyms₁, keeps₁, solved₁⟩
    refine .pure ⟨?_, tidy₁, selected₁, synonyms₁, fun x member e => ?_⟩
    · cases none : s.sheet.synonyms with
      | cons x rest => exact solved₁ x (show x ∈ s.sheet.synonyms by simp [none])
      | nil =>
        refine ⟨fun _ => .missing, by simp [none], fun c member => ?_⟩
        obtain ⟨a, isSynonym, -⟩ := asks c member
        simp [none] at isSynonym
    · rw [keeps₁ x member, exact_ member]
      refine ⟨fun ⟨_, isFound⟩ => isFound member, ?_⟩
      rintro ⟨choice, solves, rfl⟩
      exact ⟨solves.kept x member, fun _ => ⟨choice, solves, rfl⟩⟩

end Cycle

end Evaluation

open Evaluation

/-- Two values stand for things that are related as a condition says. -/
def Condition.RelatesValues (p : Program) (c : Condition) (v w : Entity) : Prop :=
  ∃ e e', StandsForPlace v e ∧ StandsForPlace w e' ∧ p.Holds c.relation e e'

/-- Conditions between synonyms are resolved exactly: each synonym keeps the values that it has in some
combination of the values left that meets all conditions. It fails if no combination does.
-/
theorem Analysis.resolveCycle_exact [Order] {text file : String} {a : Analysis}
    {kinds : String → Kind} {all : List Condition} {s : State} (accepted : Analysis.ofText text = .ok a)
    (filled : a.program.Filled) (declared : a.program.CalleesDeclared) (short : a.program.Short)
    (tidy : s.sheet.Tidy)
    (linked : ∀ c ∈ all, ∃ x ∈ s.sheet.synonyms, ∃ y ∈ s.sheet.synonyms, c.first = .synonym x
      ∧ c.second = .synonym y ∧ ∃ kind kind', c.relation.Allows kind kind'
      ∧ (∀ v, s.sheet.Keeps x v → ∃ e, a.program.Fits kind e ∧ Stands v e)
      ∧ ∀ w, s.sheet.Keeps y w → ∃ e, a.program.Fits kind' e ∧ Stands w e)
    : let solves := Solves s.sheet (·.RelatesValues a.program) all
      Ends (a.subject file) (¬ ∃ choice, solves choice) s (resolveCycle (all.map (·.tree kinds)))
        fun _ s' => (∃ choice, solves choice)
          ∧ ∀ x ∈ s.sheet.synonyms, ∀ e, s'.sheet.Keeps x e ↔ ∃ choice, solves choice ∧ choice x = e := by
  intro solves
  have named := Analysis.named accepted
  have setting : Setting a.program (a.subject file).knowledge :=
    ⟨(Analysis.ofText_eq_ok accepted).2, named, filled, declared, short⟩
  have ends := @ends_resolveCycle kinds all s (a.subject file) (·.RelatesValues a.program) tidy ?_
  · refine ends.mono ?_
    rintro - s' ⟨solvable, -, -, -, keeps⟩
    exact ⟨solvable, keeps⟩
  intro c member
  obtain ⟨x, isSynonym, y, isSynonym', first, second, kind, kind', allowed, left, right⟩ := linked c member
  obtain ⟨m, known, -, exact_⟩ := setting.modes_exact allowed
  have related {v w e e' : Entity} (fits : a.program.Fits kind e) (stands : Stands v e)
      (fits' : a.program.Fits kind' e') (stands' : Stands w e')
      : c.RelatesValues a.program v w ↔ a.program.Holds c.relation e e' := by
    have place := fits.isPlace named
    have place' := fits'.isPlace named
    constructor
    · rintro ⟨e₁, e₁', of, of', holds⟩
      obtain rfl := of.2.eq_of_text place (of.1.text.symm.trans stands.text)
      obtain rfl := of'.2.eq_of_text place' (of'.1.text.symm.trans stands'.text)
      exact holds
    · exact fun holds => ⟨e, e', ⟨stands, place⟩, ⟨stands', place'⟩, holds⟩
  refine ⟨x, isSynonym, y, isSynonym', first, second, m, modes_eq_ok known, fun v w kept kept' => ?_⟩
  obtain ⟨e, fits, stands⟩ := left v kept
  obtain ⟨e', fits', stands'⟩ := right w kept'
  rw [related fits stands fits' stands']
  refine (exact_.member (.inl fits) (.inl fits') stands stands').because ?_
  -- nothing of the two kinds is related, and any combination would have such things
  rintro unrelated ⟨choice, solution⟩
  obtain ⟨e₁, fits₁, stands₁⟩ := left _ (solution.kept x isSynonym)
  obtain ⟨e₂, fits₂, stands₂⟩ := right _ (solution.kept y isSynonym')
  have holds := solution.related c member
  rw [first, second] at holds
  exact unrelated e₁ e₂ fits₁ fits₂ ((related fits₁ stands₁ fits₂ stands₂).mp holds)

def Evaluation.pairSheet : Sheet :=
  { Sheet.start with
    cells := (Sheet.start.cells.put "s" Sheet.finalColumn (.set ⟨[.line 1]⟩)).put "t" Sheet.finalColumn
      (.set ⟨[.name "2"]⟩) }

theorem Evaluation.tidy_pairSheet : pairSheet.Tidy where
  orderly := (((Grid.Orderly.empty.addRow _).addRow _).put _ _ _).put _ _ _
  truth := by decide
  final x member := by
    obtain rfl | rfl : x = "s" ∨ x = "t" := by simpa using (show x ∈ ["s", "t"] from member)
    · exact ⟨_, rfl, by simp⟩
    · exact ⟨_, rfl, by simp⟩
  allowed x member e kept column values read := by
    obtain rfl : column = Sheet.finalColumn := by
      simp only [pairSheet, Grid.cell?_put, Sheet.cell?_start] at read
      grind
    exact (Sheet.keeps_iff read).mp kept

/-- Something is left to a statement that follows another one, or there is no such statement. -/
theorem Analysis.resolveCycle_exact_on_follows
    : ∃ a, Analysis.ofText "procedure p \x7b x = 1; y = x; \x7d" = .ok a
      ∧ let c : Condition := ⟨.follows, .synonym "s", .synonym "t"⟩
        Ends (a.subject "code.txt")
          (¬ ∃ choice, Solves pairSheet (·.RelatesValues a.program) [c] choice) ⟨pairSheet, []⟩
          (resolveCycle [c.tree fun _ => .statement]) fun _ s' => ∃ v, s'.sheet.Keeps "t" v := by
  refine exists_ok_of (fun a => a.program.Filled ∧ a.program.CalleesDeclared ∧ a.program.Short
    ∧ 1 ∈ a.knowledge.statementLines ∧ 2 ∈ a.knowledge.statementLines) (by decide +kernel) ?_
  rintro a accepted ⟨filled, declared, short, one, two⟩ c
  have fits {n : Int} := (Analysis.describes accepted).mem_statementLines (n := n).mp
  have ends := @Analysis.resolveCycle_exact .asGiven _ "code.txt" a (fun _ => .statement) [c] ⟨pairSheet, []⟩
    accepted filled declared short tidy_pairSheet ?_
  · refine ends.mono ?_
    rintro - s' ⟨⟨choice, solves⟩, keeps⟩
    exact ⟨choice "t", (keeps "t" (by decide) _).mpr ⟨choice, solves, rfl⟩⟩
  · refine List.forall_mem_singleton.mpr ⟨"s", by decide, "t", by decide, rfl, rfl, .statement, .statement,
      trivial, fun v kept => ⟨.line 1, fits one, ?_⟩, fun w kept => ⟨.line 2, fits two, ?_⟩⟩
    · exact .inl (by simpa using (Sheet.keeps_iff rfl).mp kept)
    · have isText : w = .name "2" := by simpa using (Sheet.keeps_iff rfl).mp kept
      exact .inr (isText.trans rfl)

/-- A condition with a name in quotes makes it fail although the only combination meets it. -/
theorem Analysis.resolveCycle_fails_on_name
    : ∃ a, Analysis.ofText "procedure p \x7b x = 1; y = x; \x7d" = .ok a
      ∧ pairSheet.Tidy
      ∧ (do (← modes a.knowledge "USES").memberFixed (.name "2") (.name "x")).toOption = some true
      ∧ Ends (a.subject "code.txt") True ⟨pairSheet, []⟩
        (resolveCycle [.node "USES" "" 0 [.leaf "STMT" "t", .leaf "IDENT_QUOTE" "x"]])
        fun _ _ => False := by
  let fails (a : Analysis) : Bool :=
    match resolveCycle [.node "USES" "" 0 [.leaf "STMT" "t", .leaf "IDENT_QUOTE" "x"]]
      (a.subject "code.txt") ⟨pairSheet, []⟩ with
    | .ok _ _ => false
    | .error _ _ => true
  refine exists_ok_of (fun a =>
    (do (← modes a.knowledge "USES").memberFixed (.name "2") (.name "x")).toOption = some true
    ∧ fails a = true) (by decide +kernel) ?_
  rintro a - ⟨holds, failed⟩
  refine ⟨tidy_pairSheet, holds, ?_⟩
  unfold Ends
  unfold fails at failed
  split
  next ended => simp [ended] at failed
  next => trivial

end ProgramQuery

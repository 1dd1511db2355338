import ProgramQuery.Proofs.Evaluation.Consistency
import ProgramQuery.Proofs.Evaluation.Relate

/-! What it means that a change at a synonym has been carried through the open conditions, as far as
they reach, and how such changes add up.
-/

open Relation (ReflTransGen)

namespace ProgramQuery.Evaluation

open Text

variable {p : Program} {kinds : String → Kind} {all done : List Condition} {s s' s'' : State}
  {c t : Condition} {x y z : String} {e : Entity} {among : Condition → Prop}
  {lefts rights : Entity → Prop} {pending : List String}

/-- The sheet is sound and the conditions done so far are recorded on it. -/
structure Held (p : Program) (kinds : String → Kind) (all done : List Condition) (s : State)
    : Prop where
  inv : Inv p kinds all done s
  recorded : Recorded done s

/-- The conditions between synonyms that are not being followed up. -/
def Open (done : List Condition) (pending : List String) (c : Condition) : Prop :=
  c ∈ done ∧ (∃ x y, c.Joins x y) ∧ c.title ∉ pending

/-- A change at a synonym is carried through: its own values stay, all values within reach are
consistent, and beyond that nothing changes. -/
structure Carried (p : Program) (kinds : String → Kind) (among : Condition → Prop) (x : String)
    (s s' : State)
    : Prop where
  near : ∀ e, s'.sheet.Left p kinds x e ↔ s.sheet.Left p kinds x e
  around : ConsistentFrom p among (s'.sheet.Left p kinds) x
  away : ∀ y, isSynonym y = true → ¬ Linked among x y →
    ∀ e, s'.sheet.Left p kinds y e ↔ s.sheet.Left p kinds y e

/-- A change at a synonym is carried through, if all was consistent before it. -/
def Carries (p : Program) (kinds : String → Kind) (among : Condition → Prop) (x : String)
    (s s' : State)
    : Prop :=
  ∀ wide : Entity → Prop, (∀ e, s.sheet.Left p kinds x e → wide e) →
    ConsistentFrom p among (Function.update (s.sheet.Left p kinds) x wide) x →
    Carried p kinds among x s s'

theorem Held.of_sheet (held : Held p kinds all done s) (same : s'.sheet = s.sheet)
    : Held p kinds all done s' where
  inv := {
    sound := same ▸ held.inv.sound
    rows := same ▸ held.inv.rows
    only := same ▸ held.inv.only
    complete := same ▸ held.inv.complete
  }
  recorded := by
    unfold Recorded
    rw [same]
    exact held.recorded

theorem Carries.of_sheets {s₁ s₁' : State} (carries : Carries p kinds among x s s')
    (same : s₁.sheet = s.sheet) (same' : s₁'.sheet = s'.sheet)
    : Carries p kinds among x s₁ s₁' := by
  intro wide wider consistent
  rw [same] at wider consistent
  obtain ⟨near, around, away⟩ := carries wide wider consistent
  constructor <;> rw [same'] <;> first | exact around | rw [same]
  · exact near
  · exact away

theorem Carries.trans (first : Carries p kinds among x s s') (second : Carries p kinds among x s' s'')
    : Carries p kinds among x s s'' := by
  intro wide wider consistent
  have carried := first wide wider consistent
  have carried' := second (s'.sheet.Left p kinds x) (fun _ value => value)
    (by rw [Function.update_eq_self]; exact carried.around)
  refine ⟨fun e => (carried'.near e).trans (carried.near e), carried'.around, ?_⟩
  exact fun y synonym beyond e =>
    (carried'.away y synonym beyond e).trans (carried.away y synonym beyond e)

/-- Where no condition is open for a synonym, nothing has to be carried. -/
theorem Carries.refl (none : ∀ c y, among c → ¬ c.Joins x y) : Carries p kinds among x s s := by
  intro wide wider consistent
  refine ⟨fun e => .rfl, fun c y z isAmong joins linked => ?_, fun y _ _ e => .rfl⟩
  rcases ReflTransGen.cases_head linked with rfl | ⟨_, ⟨c', isAmong', joins'⟩, -⟩
  · exact absurd joins (none c z isAmong)
  · exact absurd joins' (none c' _ isAmong')

/-- A value of a synonym passes the condition that is worked out. -/
def Passes (p : Program) (c : Condition) (lefts rights : Entity → Prop) (x : String) (e : Entity)
    : Prop :=
  (c.first = .synonym x → Matched p c.relation lefts rights e)
  ∧ (c.second = .synonym x → MatchedBack p c.relation lefts rights e)

/-- Before a condition is worked out, all open conditions from its synonyms are consistent but for the
synonyms themselves, which may have been changed. -/
def Ready (p : Program) (kinds : String → Kind) (among : Condition → Prop) (c : Condition)
    (lefts rights : Entity → Prop) (s : State)
    : Prop :=
  ∀ x ∈ c.synonyms, ∃ wide : Entity → Prop,
    (∀ e, s.sheet.Left p kinds x e → Passes p c lefts rights x e → wide e)
    ∧ ConsistentFrom p among (Function.update (s.sheet.Left p kinds) x wide) x

/-- A condition has been worked out and carried through from its synonyms. -/
structure Refined (p : Program) (kinds : String → Kind) (among : Condition → Prop) (c : Condition)
    (lefts rights : Entity → Prop) (s s' : State)
    : Prop where
  met : ∃ e e', lefts e ∧ rights e' ∧ p.Holds c.relation e e'
  near : ∀ x ∈ c.synonyms, ∀ e,
    s'.sheet.Left p kinds x e ↔ s.sheet.Left p kinds x e ∧ Passes p c lefts rights x e
  around : ∀ x ∈ c.synonyms, ConsistentFrom p among (s'.sheet.Left p kinds) x
  away : ∀ y, isSynonym y = true → (∀ x ∈ c.synonyms, ¬ Linked among x y) →
    ∀ e, s'.sheet.Left p kinds y e ↔ s.sheet.Left p kinds y e

/-- A condition between synonyms is known by its title. -/
theorem Regular.title_inj (regular : Regular p kinds all) (member : c ∈ all) (member' : t ∈ all)
    (joins : c.Joins x y) (same : t.title = c.title)
    : t = c := by
  have spelled := regular.spelled c member
  have spelled' := regular.spelled t member'
  obtain ⟨relation, first, second⟩ := (Condition.title_inj spelled' spelled).mp same
  have term {t₁ t₂ : Term} {x : String} (titles : t₁.title = t₂.title) (isSynonym : t₂ = .synonym x)
      (spelled : ProgramQuery.isSynonym x = true)
      : t₁ = t₂ := by
    subst isSynonym
    cases t₁ with
    | synonym x' => simpa [Term.title] using titles
    | line n => exact absurd titles.symm (synonym_ne_fixedRow spelled)
  have occurs := joins.mem_synonyms
  have both : t.first = c.first ∧ t.second = c.second := by
    rcases joins with ⟨isFirst, isSecond⟩ | ⟨isFirst, isSecond⟩
    · exact ⟨term first isFirst (spelled x occurs.1), term second isSecond (spelled y occurs.2)⟩
    · exact ⟨term first isFirst (spelled y occurs.2), term second isSecond (spelled x occurs.1)⟩
  cases c
  cases t
  simp_all

/-- Following up one more condition leaves all others open. -/
theorem Regular.open_cons (regular : Regular p kinds all) (subset : ∀ c ∈ done, c ∈ all)
    (isOpen : Open done pending t)
    : Open done (t.title :: pending) = fun c => Open done pending c ∧ c ≠ t := by
  funext c
  obtain ⟨isDone, ⟨x, y, joins⟩, -⟩ := isOpen
  simp only [Open, List.mem_cons, not_or, eq_iff_iff]
  constructor
  · rintro ⟨isDone', joins', differs, absent⟩
    exact ⟨⟨isDone', joins', absent⟩, fun same => differs (by rw [same])⟩
  · rintro ⟨⟨isDone', joins', absent⟩, differs⟩
    refine ⟨isDone', joins', fun same => differs ?_, absent⟩
    exact regular.title_inj (subset t isDone) (subset c isDone') joins same

theorem isSynonym_of_linked (regular : Regular p kinds all) (subset : ∀ c, among c → c ∈ all)
    (linked : Linked among x y) (synonym : isSynonym x = true)
    : isSynonym y = true := by
  rcases ReflTransGen.cases_tail linked with rfl | ⟨z, -, c, isAmong, joins⟩
  · exact synonym
  · exact regular.spelled c (subset c isAmong) y joins.mem_synonyms.2

theorem passes_first (first : c.first = .synonym x) (second : c.second = .synonym y)
    (differs : x ≠ y)
    : Passes p c lefts rights x e ↔ lefts e ∧ ∃ e', rights e' ∧ c.Relates p x y e e' := by
  simp [Passes, Matched, Condition.Relates, first, second, differs, differs.symm]

theorem passes_second (first : c.first = .synonym x) (second : c.second = .synonym y)
    (differs : x ≠ y)
    : Passes p c lefts rights y e ↔ rights e ∧ ∃ e', lefts e' ∧ c.Relates p y x e e' := by
  simp [Passes, MatchedBack, Condition.Relates, first, second, differs, differs.symm]

theorem bridge_of_tame (tame : Tame all) (subset : ∀ c ∈ done, c ∈ all)
    (member : t ∈ all) (joins : t.Joins x y)
    : ¬ Linked (fun c => Open done pending c ∧ c ≠ t) x y :=
  fun linked => tame t member x y joins
    (linked.mono fun c isOpen => ⟨subset c isOpen.1.1, isOpen.2⟩)

/-- Working out an open condition again, with the values left at one end and the kind of the other,
carries the change across it. -/
theorem carries_of_refined (regular : Regular p kinds all) (subset : ∀ c ∈ done, c ∈ all)
    (tame : Tame all) (isOpen : Open done pending t) (joins : t.Joins x y)
    (passesNear : ∀ e, Passes p t lefts rights x e
      ↔ s.sheet.Left p kinds x e ∧ ∃ e', p.Fits (kinds y) e' ∧ t.Relates p x y e e')
    (passesFar : ∀ e, Passes p t lefts rights y e
      ↔ p.Fits (kinds y) e ∧ ∃ e', s.sheet.Left p kinds x e' ∧ t.Relates p y x e e')
    (fits : ∀ e, s.sheet.Left p kinds y e → p.Fits (kinds y) e)
    (refines : Ready p kinds (Open done (t.title :: pending)) t lefts rights s →
      Refined p kinds (Open done (t.title :: pending)) t lefts rights s s')
    : Carries p kinds (Open done pending) x s s' := by
  intro wide wider consistent
  have bridge : ¬ Linked (fun c => Open done pending c ∧ c ≠ t) x y :=
    bridge_of_tame tame subset (subset t isOpen.1) joins
  have differs : y ≠ x := by
    rintro rfl
    exact bridge .refl
  rw [regular.open_cons subset isOpen] at refines
  have passes (e : Entity) (value : s.sheet.Left p kinds x e) : Passes p t lefts rights x e := by
    obtain ⟨e', value', relates⟩ := consistent t x y isOpen joins .refl x y joins e
      (by rw [Function.update_self]; exact wider e value)
    rw [Function.update_of_ne differs] at value'
    exact (passesNear e).mpr ⟨value, e', fits e' value', relates⟩
  obtain ⟨-, near, around, away⟩ := refines fun z occurs => by
    rcases joins.mem_synonyms_iff.mp occurs with rfl | rfl
    · exact ⟨wide, fun e value _ => wider e value, consistent.mono fun c isOpen => isOpen.1⟩
    · refine ⟨s.sheet.Left p kinds z, fun e value _ => value, ?_⟩
      rw [Function.update_eq_self]
      exact consistent.beyond isOpen joins bridge
  have nearX (e : Entity) : s'.sheet.Left p kinds x e ↔ s.sheet.Left p kinds x e :=
    (near x joins.mem_synonyms.1 e).trans (and_iff_left_of_imp (passes e))
  have nearY (e : Entity) : s'.sheet.Left p kinds y e
      ↔ s.sheet.Left p kinds y e ∧ ∃ e', s.sheet.Left p kinds x e' ∧ t.Relates p y x e e' := by
    rw [near y joins.mem_synonyms.2 e, passesFar]
    exact and_congr_right fun value => and_iff_right (fits e value)
  refine ⟨nearX, ?_, fun z synonym beyond e => away z synonym (fun z' occurs linked => ?_) e⟩
  · exact consistent.carried isOpen joins bridge wider nearX nearY
      (around x joins.mem_synonyms.1) (around y joins.mem_synonyms.2)
  · have linked := linked.mono fun c isOpen => isOpen.1
    rcases joins.mem_synonyms_iff.mp occurs with rfl | rfl
    · exact beyond linked
    · exact beyond (.head ⟨t, isOpen, joins⟩ linked)

/-- The change is carried through from an argument of the condition, if it is a synonym. -/
def CarriesFrom (p : Program) (kinds : String → Kind) (among : Condition → Prop)
    : Term → State → State → Prop
  | .synonym x, s, s' => Carries p kinds among x s s'
  | .line _, s, s' => s' = s

theorem passes_of_not_mem (absent : z ∉ c.synonyms) : Passes p c lefts rights z e := by
  rw [Condition.mem_synonyms, not_or] at absent
  exact ⟨fun first => absurd first absent.1, fun second => absurd second absent.2⟩

/-- What has been narrowed at one synonym within reach is carried through from there. -/
theorem Ready.carried (ready : Ready p kinds among c lefts rights s) (occurs : x ∈ c.synonyms)
    (only : ∀ y ∈ c.synonyms, Linked among x y → y = x)
    (narrowed : ∀ y, Linked among x y → ∀ e, s'.sheet.Left p kinds y e
      ↔ s.sheet.Left p kinds y e ∧ Passes p c lefts rights y e)
    (carries : Carries p kinds among x s' s'')
    : Carried p kinds among x s' s'' := by
  obtain ⟨wide, wider, consistent⟩ := ready x occurs
  refine carries wide (fun e value => ?_) (consistent.congr fun y linked e => ?_)
  · have passed := (narrowed x .refl e).mp value
    exact wider e passed.1 passed.2
  · by_cases same : y = x
    · subst same
      rw [Function.update_self, Function.update_self]
    · rw [Function.update_of_ne same, Function.update_of_ne same, narrowed y linked]
      exact (and_iff_left (passes_of_not_mem fun occurs' => same (only y occurs' linked))).symm

/-- The synonyms beyond the reach of a condition have the values that they had before it. -/
theorem Narrows.unchanged (narrows : Narrows p kinds all done c lefts rights s s')
    (synonym : isSynonym y = true) (beyond : ∀ x ∈ c.synonyms, ¬ Linked among x y) (e : Entity)
    : s'.sheet.Left p kinds y e ↔ s.sheet.Left p kinds y e :=
  (narrows.left y e synonym).trans
    (and_iff_left (passes_of_not_mem fun occurs => beyond y occurs .refl))

section Refined

variable (narrows : Narrows p kinds all done c lefts rights s s') (regular : Regular p kinds all)
  (member : c ∈ all) (subset : ∀ c, among c → c ∈ all)
  (ready : Ready p kinds among c lefts rights s) {s₂ s₃ : State}
include narrows regular member subset ready

theorem Narrows.refined_single (only : ∀ y, y ∈ c.synonyms ↔ y = x)
    (carries : Carries p kinds among x s' s'')
    : Refined p kinds among c lefts rights s s'' := by
  have occurs := (only x).mpr rfl
  have synonyms {y : String} (linked : Linked among x y) :=
    isSynonym_of_linked regular subset linked (regular.spelled c member x occurs)
  have carried := ready.carried occurs (fun y occurs _ => (only y).mp occurs)
    (fun y linked e => narrows.left y e (synonyms linked)) carries
  refine ⟨narrows.met, fun y occurs' e => ?_, fun y occurs' => ?_, fun y synonym beyond e => ?_⟩
  · obtain rfl := (only y).mp occurs'
    exact (carried.near e).trans (narrows.left y e (synonyms .refl))
  · obtain rfl := (only y).mp occurs'
    exact carried.around
  · exact (carried.away y synonym (beyond x occurs) e).trans
      (narrows.unchanged synonym beyond e)

/-- The two synonyms of a condition are carried through one after the other. -/
theorem Narrows.refined_both (joins : c.Joins x y) (apart : ¬ Linked among x y)
    (first : Carries p kinds among x s' s₂) (second : Carries p kinds among y s₂ s₃)
    : Refined p kinds among c lefts rights s s₃ := by
  obtain ⟨occursX, occursY⟩ := joins.mem_synonyms
  have synonyms {z z' : String} (occurs : z ∈ c.synonyms) (linked : Linked among z z') :=
    isSynonym_of_linked regular subset linked (regular.spelled c member z occurs)
  have carried := ready.carried occursX
    (fun z occurs linked => (joins.mem_synonyms_iff.mp occurs).resolve_right
      fun same => apart (same ▸ linked))
    (fun z linked e => narrows.left z e (synonyms occursX linked)) first
  -- nothing that hangs on the second synonym has changed in between
  have between {z : String} (linked : Linked among y z) (e : Entity) :=
    carried.away z (synonyms occursY linked) (fun linked' => apart (linked'.trans linked.symm)) e
  have carried' := ready.carried occursY
    (fun z occurs linked => (joins.mem_synonyms_iff.mp occurs).resolve_left
      fun same => apart (same ▸ linked.symm))
    (fun z linked e => (between linked e).trans (narrows.left z e (synonyms occursY linked))) second
  have after {z : String} (linked : Linked among x z) (e : Entity) :=
    carried'.away z (synonyms occursX linked) (fun linked' => apart (linked.trans linked'.symm)) e
  refine ⟨narrows.met, fun z occurs e => ?_, fun z occurs => ?_, fun z synonym beyond e => ?_⟩
  · rcases joins.mem_synonyms_iff.mp occurs with rfl | rfl
    · exact ((after .refl e).trans (carried.near e)).trans
        (narrows.left z e (synonyms occurs .refl))
    · exact ((carried'.near e).trans (between .refl e)).trans
        (narrows.left z e (synonyms occurs .refl))
  · rcases joins.mem_synonyms_iff.mp occurs with rfl | rfl
    · exact carried.around.congr fun z' linked e => (after linked e).symm
    · exact carried'.around
  · exact ((carried'.away z synonym (beyond y occursY) e).trans
      (carried.away z synonym (beyond x occursX) e)).trans
      (narrows.unchanged synonym beyond e)

/-- A condition is worked out and the changes are carried through from its arguments, which no open
condition connects. -/
theorem Narrows.refined (apart : ∀ a b, c.Joins a b → ¬ Linked among a b)
    (first : CarriesFrom p kinds among c.first s' s₂)
    (second : CarriesFrom p kinds among c.second s₂ s₃)
    : Refined p kinds among c lefts rights s s₃ := by
  cases isFirst : c.first with
  | line n =>
    rw [isFirst] at first
    obtain rfl : s₂ = s' := first
    cases isSecond : c.second with
    | line n' =>
      rw [isSecond] at second
      obtain rfl : s₃ = s₂ := second
      have none (x : String) : x ∉ c.synonyms := by
        simp [Condition.mem_synonyms, isFirst, isSecond]
      exact ⟨narrows.met, fun x occurs => absurd occurs (none x),
        fun x occurs => absurd occurs (none x), fun y => narrows.unchanged⟩
    | synonym b =>
      rw [isSecond] at second
      refine narrows.refined_single regular member subset ready (fun x => ?_) second
      simp [Condition.mem_synonyms, isFirst, isSecond, eq_comm]
  | synonym a =>
    rw [isFirst] at first
    cases isSecond : c.second with
    | line n' =>
      rw [isSecond] at second
      obtain rfl : s₃ = s₂ := second
      refine narrows.refined_single regular member subset ready (fun x => ?_) first
      simp [Condition.mem_synonyms, isFirst, isSecond, eq_comm]
    | synonym b =>
      rw [isSecond] at second
      have joins : c.Joins a b := .inl ⟨isFirst, isSecond⟩
      exact narrows.refined_both regular member subset ready joins (apart a b joins) first second

end Refined

end ProgramQuery.Evaluation

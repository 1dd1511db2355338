import ProgramQuery.Proofs.Evaluation.JoinQuery

/-! Values for each synonym that are consistent along the conditions: each value has a related value at
the other end of every condition. Where the conditions form no cycle, a change at one synonym can be
carried through all conditions from there, one after the other.
-/

open Relation (ReflTransGen)

namespace ProgramQuery

variable {p : Program} {c t : Condition} {x y z : String} {e e' : Entity}
  {among fewer : Condition → Prop} {values values' : String → Entity → Prop} {term : Term}
  {wide : Entity → Prop} {all : List Condition}

namespace Condition

def Joins (c : Condition) (x y : String) : Prop :=
  (c.first = .synonym x ∧ c.second = .synonym y) ∨ (c.first = .synonym y ∧ c.second = .synonym x)

/-- Two values of the synonyms of a condition are related as it says. -/
def Relates (c : Condition) (p : Program) (x y : String) (e e' : Entity) : Prop :=
  (c.first = .synonym x ∧ c.second = .synonym y ∧ p.Holds c.relation e e')
  ∨ (c.first = .synonym y ∧ c.second = .synonym x ∧ p.Holds c.relation e' e)

theorem Joins.symm (joins : c.Joins x y) : c.Joins y x :=
  Or.symm joins

theorem Relates.symm (relates : c.Relates p x y e e') : c.Relates p y x e' e :=
  Or.symm relates

theorem Joins.mem_synonyms_iff (joins : c.Joins x y) : z ∈ c.synonyms ↔ z = x ∨ z = y := by
  rw [mem_synonyms]
  rcases joins with ⟨first, second⟩ | ⟨first, second⟩ <;> simp [first, second, eq_comm, or_comm]

theorem Joins.mem_synonyms (joins : c.Joins x y) : x ∈ c.synonyms ∧ y ∈ c.synonyms :=
  ⟨joins.mem_synonyms_iff.mpr (.inl rfl), joins.mem_synonyms_iff.mpr (.inr rfl)⟩

theorem link?_isSome
    : c.link?.isSome = true ↔ ∃ a b, c.first = .synonym a ∧ c.second = .synonym b := by
  unfold link?
  cases c.first <;> cases c.second <;> simp

theorem exists_joins_iff : (∃ x y, c.Joins x y) ↔ c.link?.isSome = true := by
  rw [link?_isSome]
  constructor
  · rintro ⟨x, y, joins | joins⟩
    · exact ⟨x, y, joins⟩
    · exact ⟨y, x, joins⟩
  · exact fun ⟨a, b, ends⟩ => ⟨a, b, .inl ends⟩

theorem Joins.ends {x' y' : String} (joins : c.Joins x y) (joins' : c.Joins x' y')
    : (x' = x ∧ y' = y) ∨ (x' = y ∧ y' = x) := by
  rcases joins with ⟨first, second⟩ | ⟨first, second⟩ <;>
    rcases joins' with ⟨first', second'⟩ | ⟨first', second'⟩ <;>
    simp_all

end Condition

def Linked (among : Condition → Prop) : String → String → Prop :=
  ReflTransGen fun x y => ∃ c, among c ∧ c.Joins x y

theorem Linked.symm (linked : Linked among x y) : Linked among y x := by
  induction linked with
  | refl => exact .refl
  | tail _ step ih =>
    obtain ⟨c, isAmong, joins⟩ := step
    exact .head ⟨c, isAmong, joins.symm⟩ ih

theorem Linked.mono (subset : ∀ c, fewer c → among c) (linked : Linked fewer x y)
    : Linked among x y := by
  induction linked with
  | refl => exact .refl
  | tail _ step ih =>
    obtain ⟨c, isAmong, joins⟩ := step
    exact ih.tail ⟨c, subset c isAmong, joins⟩

/-- Every way from one end of a condition goes on without the condition from one of its ends. -/
theorem Linked.without (joins : t.Joins x y) (linked : Linked among x z)
    : Linked (fun c => among c ∧ c ≠ t) x z ∨ Linked (fun c => among c ∧ c ≠ t) y z := by
  induction linked with
  | refl => exact .inl .refl
  | @tail z z' _ step ih =>
    obtain ⟨c, isAmong, joins'⟩ := step
    by_cases same : c = t
    · subst same
      rcases joins.ends joins' with ⟨-, rfl⟩ | ⟨-, rfl⟩
      · exact .inr .refl
      · exact .inl .refl
    · have step : ∃ c, (among c ∧ c ≠ t) ∧ c.Joins z z' := ⟨c, ⟨isAmong, same⟩, joins'⟩
      exact ih.imp (·.tail step) (·.tail step)

/-- What an argument may stand for, given what each synonym may. -/
def Term.Range (values : String → Entity → Prop) : Term → Entity → Prop
  | .synonym x => values x
  | .line n => (· = .line n)

theorem Term.Range.mono (range : term.Range values e)
    (wider : ∀ x, term = .synonym x → ∀ e, values x e → values' x e)
    : term.Range values' e := by
  cases term with
  | synonym x => exact wider x rfl e range
  | line n => exact range

theorem Term.range_congr (same : ∀ x, term = .synonym x → ∀ e, values x e ↔ values' x e)
    : term.Range values = term.Range values' := by
  funext e
  exact propext ⟨fun range => range.mono fun x isTerm e => (same x isTerm e).mp,
    fun range => range.mono fun x isTerm e => (same x isTerm e).mpr⟩

/-- Every value at one end of a condition is related to one at the other end. -/
def Consistent (p : Program) (values : String → Entity → Prop) (c : Condition) : Prop :=
  ∀ x y, c.Joins x y → ∀ e, values x e → ∃ e', values y e' ∧ c.Relates p x y e e'

/-- The values are consistent along all conditions that can be reached from a synonym. -/
def ConsistentFrom (p : Program) (among : Condition → Prop) (values : String → Entity → Prop)
    (x : String)
    : Prop :=
  ∀ c y z, among c → c.Joins y z → Linked among x y → Consistent p values c

theorem ConsistentFrom.mono (consistent : ConsistentFrom p among values x)
    (subset : ∀ c, fewer c → among c)
    : ConsistentFrom p fewer values x :=
  fun c y z isAmong joins linked =>
    consistent c y z (subset c isAmong) joins (linked.mono subset)

/-- Only the values of the synonyms within reach matter. -/
theorem ConsistentFrom.congr (consistent : ConsistentFrom p among values x)
    (same : ∀ y, Linked among x y → ∀ e, values y e ↔ values' y e)
    : ConsistentFrom p among values' x := by
  intro c y z isAmong joins linked y' z' joins' e value
  have reached : Linked among x y' ∧ Linked among x z' := by
    have step : Linked among x z := linked.tail ⟨c, isAmong, joins⟩
    rcases joins.ends joins' with ⟨rfl, rfl⟩ | ⟨rfl, rfl⟩
    · exact ⟨linked, step⟩
    · exact ⟨step, linked⟩
  obtain ⟨e', value', relates⟩ := consistent c y z isAmong joins linked y' z' joins' e
    ((same y' reached.1 e).mpr value)
  exact ⟨e', (same z' reached.2 e').mp value', relates⟩

/-- Where one synonym has a value, so do all that can be reached from it. -/
theorem ConsistentFrom.exists_value (consistent : ConsistentFrom p among values x)
    (linked : Linked among x y) (value : ∃ e, values x e)
    : ∃ e, values y e := by
  induction linked with
  | refl => exact value
  | @tail y z linked step ih =>
    obtain ⟨c, isAmong, joins⟩ := step
    obtain ⟨e, value⟩ := ih
    obtain ⟨e', value', -⟩ := consistent c y z isAmong joins linked y z joins e value
    exact ⟨e', value'⟩

/-- Beyond a condition that is not on a cycle, the values at its near end do not matter. -/
theorem ConsistentFrom.beyond (isAmong : among t) (joins : t.Joins x y)
    (bridge : ¬ Linked (fun c => among c ∧ c ≠ t) x y)
    (consistent : ConsistentFrom p among (Function.update values x wide) x)
    : ConsistentFrom p (fun c => among c ∧ c ≠ t) values y := by
  have from_ : ConsistentFrom p (fun c => among c ∧ c ≠ t) (Function.update values x wide) y := by
    intro c y' z isAmong' joins' linked
    refine consistent c y' z isAmong'.1 joins' (.head ⟨t, isAmong, joins⟩ ?_)
    exact linked.mono fun c isAmong => isAmong.1
  refine from_.congr fun z linked e => ?_
  have differs : z ≠ x := by
    rintro rfl
    exact bridge linked.symm
  rw [Function.update_of_ne differs]

/-- A change at one end of a condition is carried to its other end and from there on. -/
theorem ConsistentFrom.carried (isAmong : among t) (joins : t.Joins x y)
    (bridge : ¬ Linked (fun c => among c ∧ c ≠ t) x y) (wider : ∀ e, values x e → wide e)
    (consistent : ConsistentFrom p among (Function.update values x wide) x)
    (near : ∀ e, values' x e ↔ values x e)
    (far : ∀ e, values' y e ↔ values y e ∧ ∃ e', values x e' ∧ t.Relates p y x e e')
    (fromNear : ConsistentFrom p (fun c => among c ∧ c ≠ t) values' x)
    (fromFar : ConsistentFrom p (fun c => among c ∧ c ≠ t) values' y)
    : ConsistentFrom p among values' x := by
  intro c y' z isAmong' joins' linked
  by_cases same : c = t
  · subst same
    have differs : y ≠ x := by
      rintro rfl
      exact bridge .refl
    have forth (e : Entity) (value : values' x e)
        : ∃ e', values' y e' ∧ c.Relates p x y e e' := by
      have value := (near e).mp value
      obtain ⟨e', value', relates⟩ := consistent c x y isAmong joins .refl x y joins e
        (by rw [Function.update_self]; exact wider e value)
      rw [Function.update_of_ne differs] at value'
      exact ⟨e', (far e').mpr ⟨value', e, value, relates.symm⟩, relates⟩
    have back (e : Entity) (value : values' y e)
        : ∃ e', values' x e' ∧ c.Relates p y x e e' := by
      obtain ⟨-, e', value', relates⟩ := (far e).mp value
      exact ⟨e', (near e').mpr value', relates⟩
    intro x' y'' joins'' e value
    rcases joins.ends joins'' with ⟨rfl, rfl⟩ | ⟨rfl, rfl⟩
    · exact forth e value
    · exact back e value
  · rcases linked.without joins with linked | linked
    · exact fromNear c y' z ⟨isAmong', same⟩ joins' linked
    · exact fromFar c y' z ⟨isAmong', same⟩ joins' linked

/-- No condition lies on a cycle. -/
def Tame (all : List Condition) : Prop :=
  ∀ c ∈ all, ∀ x y, c.Joins x y → ¬ Linked (fun c' => c' ∈ all ∧ c' ≠ c) x y

theorem Tame.mono {few : List Condition} (tame : Tame all) (subset : ∀ c ∈ few, c ∈ all)
    : Tame few := by
  intro c member x y joins linked
  refine tame c (subset c member) x y joins (linked.mono ?_)
  exact fun c' isAmong => ⟨subset c' isAmong.1, isAmong.2⟩

/-- Two choices are put together along a condition between their parts. -/
theorem exists_choice_cons (joins : c.Joins x y)
    (apart : ¬ Linked (· ∈ all) x y) (consistent : Consistent p values c)
    (extends_ : ∀ z e, values z e → ∃ choice : String → Entity, choice z = e
      ∧ (∀ z, values z (choice z)) ∧ ∀ c ∈ all, ∀ z z', c.Joins z z' →
        c.Relates p z z' (choice z) (choice z'))
    (value : values z e) (beside : ¬ Linked (· ∈ all) y z)
    : ∃ choice : String → Entity, choice z = e ∧ (∀ z, values z (choice z))
      ∧ ∀ c' ∈ c :: all, ∀ z z', c'.Joins z z' → c'.Relates p z z' (choice z) (choice z') := by
  classical
  obtain ⟨near, isValue, nearValues, nearMeets⟩ := extends_ z e value
  obtain ⟨e', value', relates⟩ := consistent x y joins (near x) (nearValues x)
  obtain ⟨far, isValue', farValues, farMeets⟩ := extends_ y e' value'
  refine ⟨fun z => if Linked (· ∈ all) y z then far z else near z, ?_, ?_, ?_⟩
  · simp only [if_neg beside, isValue]
  · intro z
    dsimp only
    split
    · exact farValues z
    · exact nearValues z
  · intro c' member z z' joins'
    rcases List.mem_cons.mp member with rfl | member
    · have atX : ¬ Linked (· ∈ all) y x := fun linked => apart linked.symm
      have atY : Linked (· ∈ all) y y := .refl
      rcases joins.ends joins' with ⟨rfl, rfl⟩ | ⟨rfl, rfl⟩
      · simpa only [if_neg atX, if_pos atY, isValue'] using relates
      · simpa only [if_neg atX, if_pos atY, isValue'] using relates.symm
    · by_cases linked : Linked (· ∈ all) y z
      · have linked' : Linked (· ∈ all) y z' := linked.tail ⟨c', member, joins'⟩
        simpa only [if_pos linked, if_pos linked'] using farMeets c' member z z' joins'
      · have linked' : ¬ Linked (· ∈ all) y z' :=
          fun linked' => linked (linked'.tail ⟨c', member, joins'.symm⟩)
        simpa only [if_neg linked, if_neg linked'] using nearMeets c' member z z' joins'

/-- Where no condition lies on a cycle, every one of some consistent values is part of a choice that
meets all conditions. The induction takes away one condition after the other, which leaves its two
ends unconnected. -/
theorem exists_choice (links : ∀ c ∈ all, ∃ x y, c.Joins x y)
    (unique : all.Nodup) (tame : Tame all) (consistent : ∀ c ∈ all, Consistent p values c)
    (inhabited : ∀ x, ∃ e, values x e) (value : values x e)
    : ∃ choice : String → Entity, choice x = e ∧ (∀ y, values y (choice y))
      ∧ ∀ c ∈ all, ∀ y z, c.Joins y z → c.Relates p y z (choice y) (choice z) := by
  classical
  induction all generalizing x e with
  | nil =>
    choose some isSome using inhabited
    refine ⟨Function.update some x e, by simp, fun y => ?_, by simp⟩
    by_cases same : y = x
    · subst same
      rwa [Function.update_self]
    · rw [Function.update_of_ne same]
      exact isSome y
  | cons c rest ih =>
    obtain ⟨fresh, unique⟩ := List.nodup_cons.mp unique
    have extends_ {z : String} {e : Entity} (value : values z e) :=
      ih (fun c member => links c (by simp [member])) unique (tame.mono (by simp +contextual))
        (fun c member => consistent c (by simp [member])) value
    obtain ⟨a, b, joins⟩ := links c (by simp)
    have apart : ¬ Linked (· ∈ rest) a b := by
      intro linked
      refine tame c (by simp) a b joins (linked.mono fun c' member => ⟨by simp [member], ?_⟩)
      rintro rfl
      exact fresh member
    have consistent := consistent c (by simp)
    by_cases beside : Linked (· ∈ rest) b x
    · -- the condition is crossed towards the end that the synonym is not connected with
      refine exists_choice_cons joins.symm (fun linked => apart linked.symm) consistent
        (fun z e => extends_) value fun linked => ?_
      exact apart (linked.trans beside.symm)
    · exact exists_choice_cons joins apart consistent (fun z e => extends_) value beside

end ProgramQuery

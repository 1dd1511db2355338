import ProgramQuery.Proofs.Evaluation.Arrangement
import ProgramQuery.Proofs.Links.Search

/-! The conditions form a cycle exactly if the search for one in the graph of their synonyms finds
it.
-/

namespace ProgramQuery.Evaluation

open Text

variable {kinds : String → Kind} {all few : List Condition} {c : Condition} {x y : String}
  {names : List String}

def ends? (c : Condition) : Option (String × String) :=
  c.link?.map fun l => (l.first, l.second)

theorem ends?_eq_some {a b : String}
    : ends? c = some (a, b) ↔ c.first = .synonym a ∧ c.second = .synonym b := by
  unfold ends? Condition.link?
  cases c.first <;> cases c.second <;> simp

theorem linked?_tree (c : Condition) : linked? (c.tree kinds) = .ok (ends? c) := by
  unfold Condition.tree ends? Condition.link?
  cases first : c.first with
  | line n => cases c.second <;> rfl
  | synonym a =>
    have notFixed := label_not_fixed (kinds a)
    cases c.second with
    | line n =>
      change (if Argument.isFixedKind (kinds a).label = true then (pure none : Asked _)
        else pure none) = _
      rw [if_neg (by simp [notFixed])]
      rfl
    | synonym b =>
      have notFixed' := label_not_fixed (kinds b)
      change (if Argument.isFixedKind (kinds a).label = true then (pure none : Asked _)
        else if Argument.isFixedKind (kinds b).label = true then pure none
        else pure (some (a, b))) = _
      rw [if_neg (by simp [notFixed]), if_neg (by simp [notFixed'])]
      rfl

theorem filterMapM_linked?
    : (all.map (·.tree kinds)).filterMapM linked? = .ok (all.filterMap ends?) := by
  suffices loop : ∀ found, List.filterMapM.loop linked? (all.map (·.tree kinds)) found
      = .ok (found.reverse ++ all.filterMap ends?) from loop []
  induction all with
  | nil => intro found; simp [List.filterMapM.loop, pure, Except.pure]
  | cons c rest ih =>
    intro found
    rw [List.map_cons, List.filterMapM.loop, linked?_tree]
    cases hit : ends? c with
    | none => exact (ih found).trans (by simp [hit])
    | some ends => exact (ih (ends :: found)).trans (by simp [hit])

def joinedNames (all : List Condition) : List String :=
  ((all.filterMap ends?).flatMap fun (a, b) => [a, b]).eraseDups

def edge? (names : List String) (c : Condition) : Option (Nat × Nat) :=
  (ends? c).map fun (a, b) => (names.idxOf a, names.idxOf b)

theorem linksOf_tree
    : linksOf (all.map (·.tree kinds))
      = .ok (.ofEdges (joinedNames all).length (all.filterMap (edge? (joinedNames all)))) := by
  have edges : all.filterMap (edge? (joinedNames all))
      = (all.filterMap ends?).map fun (a, b) =>
          ((joinedNames all).idxOf a, (joinedNames all).idxOf b) :=
    (List.map_filterMap ..).symm
  unfold linksOf
  rw [filterMapM_linked?, edges]
  unfold Links.ofEdges
  rw [List.foldl_map]
  rfl

theorem edge?_eq_some {e : Nat × Nat}
    : edge? names c = some e ↔ ∃ a b, c.first = .synonym a ∧ c.second = .synonym b
        ∧ e = (names.idxOf a, names.idxOf b) := by
  unfold edge? ends? Condition.link?
  cases c.first <;> cases c.second <;> simp [eq_comm]

theorem mem_joinedNames {a b : String} (member : c ∈ all) (first : c.first = .synonym a)
    (second : c.second = .synonym b)
    : a ∈ joinedNames all ∧ b ∈ joinedNames all := by
  have connected : (a, b) ∈ all.filterMap ends? :=
    List.mem_filterMap.mpr ⟨c, member, ends?_eq_some.mpr ⟨first, second⟩⟩
  unfold joinedNames
  simp only [List.mem_eraseDups, List.mem_flatMap]
  exact ⟨⟨_, connected, by simp⟩, ⟨_, connected, by simp⟩⟩

theorem edges_bounded {e : Nat × Nat} (member : e ∈ all.filterMap (edge? (joinedNames all)))
    : e.1 < (joinedNames all).length ∧ e.2 < (joinedNames all).length := by
  obtain ⟨c, isCondition, edge⟩ := List.mem_filterMap.mp member
  obtain ⟨a, b, first, second, rfl⟩ := edge?_eq_some.mp edge
  obtain ⟨known, known'⟩ := mem_joinedNames isCondition first second
  exact ⟨List.idxOf_lt_length_iff.mpr known, List.idxOf_lt_length_iff.mpr known'⟩

/-- The edge of a condition goes between the places of the synonyms that it connects. -/
theorem between_of_joins (joins : c.Joins x y)
    : ∃ e, edge? names c = some e ∧ Links.Between e (names.idxOf x) (names.idxOf y) := by
  rcases joins with ⟨first, second⟩ | ⟨first, second⟩
  · exact ⟨_, edge?_eq_some.mpr ⟨x, y, first, second, rfl⟩, .inl rfl⟩
  · exact ⟨_, edge?_eq_some.mpr ⟨y, x, first, second, rfl⟩, .inr rfl⟩

theorem joins_of_between {e : Nat × Nat} {v w : Nat} (edge : edge? names c = some e)
    (between : Links.Between e v w)
    : ∃ a b, c.Joins a b ∧ v = names.idxOf a ∧ w = names.idxOf b := by
  obtain ⟨a, b, first, second, rfl⟩ := edge?_eq_some.mp edge
  rcases between with same | same <;> obtain ⟨rfl, rfl⟩ := Prod.mk.inj same
  · exact ⟨a, b, .inl ⟨first, second⟩, rfl, rfl⟩
  · exact ⟨b, a, .inr ⟨first, second⟩, rfl, rfl⟩

theorem joined_of_linked (linked : Linked (· ∈ few) x y)
    : Links.Joined (few.filterMap (edge? names)) (names.idxOf x) (names.idxOf y) := by
  induction linked with
  | refl => exact .refl
  | tail _ step ih =>
    obtain ⟨c, member, joins⟩ := step
    obtain ⟨e, edge, between⟩ := between_of_joins joins
    exact ih.tail ⟨e, List.mem_filterMap.mpr ⟨c, member, edge⟩, between⟩

/-- Synonyms whose places are connected by the edges are connected by the conditions, as every
place belongs to one synonym.
-/
theorem linked_of_joined (known : ∀ c ∈ few, ∀ a b, c.Joins a b → a ∈ names) (place : x ∈ names)
    (place' : y ∈ names)
    (joined : Links.Joined (few.filterMap (edge? names)) (names.idxOf x) (names.idxOf y))
    : Linked (· ∈ few) x y := by
  suffices walk : ∀ w, Links.Joined (few.filterMap (edge? names)) (names.idxOf x) w →
      ∃ z ∈ names, w = names.idxOf z ∧ Linked (· ∈ few) x z by
    obtain ⟨z, _, same, linked⟩ := walk _ joined
    rwa [(List.idxOf_inj place').mp same]
  intro w walked
  induction walked with
  | refl => exact ⟨x, place, rfl, .refl⟩
  | tail _ step ih =>
    obtain ⟨z, isName, rfl, linked⟩ := ih
    obtain ⟨e, member, between⟩ := step
    obtain ⟨c, isCondition, edge⟩ := List.mem_filterMap.mp member
    obtain ⟨a, b, joins, same, rfl⟩ := joins_of_between edge between
    obtain rfl := (List.idxOf_inj isName).mp same
    exact ⟨b, known c isCondition b z joins.symm, rfl, linked.tail ⟨c, isCondition, joins⟩⟩

/-- The edges of all conditions but one are those of all without its own. -/
theorem mem_edges_erase {e f : Nat × Nat} (member : c ∈ all) (edge : edge? names c = some e)
    : f ∈ (all.filterMap (edge? names)).erase e ↔ f ∈ (all.erase c).filterMap (edge? names) := by
  have split : (all.filterMap (edge? names)).Perm (e :: (all.erase c).filterMap (edge? names)) := by
    have := (List.perm_cons_erase member).filterMap (edge? names)
    rwa [List.filterMap_cons_some edge] at this
  have rest := split.erase e
  rw [List.erase_cons_head] at rest
  exact rest.mem_iff

theorem acyclic_iff_tame (unique : all.Nodup)
    : Links.Acyclic (all.filterMap (edge? (joinedNames all))) ↔ Tame all := by
  have known : ∀ c ∈ all, ∀ a b, c.Joins a b → a ∈ joinedNames all := by
    rintro c member a b (⟨first, second⟩ | ⟨first, second⟩)
    · exact (mem_joinedNames member first second).1
    · exact (mem_joinedNames member first second).2
  have others : ∀ c c', c' ∈ all.erase c ↔ c' ∈ all ∧ c' ≠ c := fun c c' => by
    rw [unique.mem_erase_iff, and_comm]
  constructor
  · intro acyclic c member x y joins linked
    obtain ⟨e, edge, between⟩ := between_of_joins joins
    have isEdge := List.mem_filterMap.mpr ⟨c, member, edge⟩
    refine (acyclic e isEdge).not_joined between ?_
    have rest := linked.mono fun c' => (others c c').mpr
    exact (joined_of_linked rest).mono fun f => (mem_edges_erase member edge).mpr
  · intro tame e isEdge joined
    obtain ⟨c, member, edge⟩ := List.mem_filterMap.mp isEdge
    obtain ⟨a, b, joins, same, same'⟩ := joins_of_between edge (.inl rfl)
    rw [same, same'] at joined
    refine tame c member a b joins (Linked.mono (fun c' => (others c c').mp) ?_)
    refine linked_of_joined (fun c' among => known c' ((others c c').mp among).1)
      (known c member a b joins) (known c member b a joins.symm) ?_
    exact joined.mono fun f => (mem_edges_erase member edge).mp

/-- The conditions are found to form a cycle exactly if they are not tame. -/
theorem exists_formCycle (unique : all.Nodup)
    : ∃ found, formCycle (all.map (·.tree kinds)) = .ok found ∧ (found = false ↔ Tame all) := by
  have bounded : ∀ e ∈ all.filterMap (edge? (joinedNames all)),
      e.1 < (joinedNames all).length ∧ e.2 < (joinedNames all).length := fun e => edges_bounded
  obtain ⟨found, searched, exactly⟩ := Links.exists_hasCycle bounded
  refine ⟨found, ?_, exactly.trans (acyclic_iff_tame unique)⟩
  unfold formCycle
  rw [linksOf_tree]
  exact searched

end ProgramQuery.Evaluation

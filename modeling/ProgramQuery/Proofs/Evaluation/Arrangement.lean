import ProgramQuery.Proofs.Evaluation.Solving
import ProgramQuery.Proofs.Query.Legible

/-! The order in which conditions are worked out. Of several conditions that are told apart by nothing
but a star, one without a star is kept if there is any, and it implies the others.
-/

open Relation (TransGen)

namespace ProgramQuery.Evaluation

open Text

variable {p : Program} {kinds : String → Kind} {conditions kept : List Condition} {c c' : Condition}
  {rest' : List Char} {r r' : RelationName} {first second : Kind}

def digestText (kinds : String → Kind) (c : Condition) : String :=
  c.relation.plain.title ++ (spelling c.first ++ declaration kinds c.first)
    ++ (spelling c.second ++ declaration kinds c.second)

theorem plainLabel_title (r : RelationName) : Tree.plainLabel r.title = r.plain.title := by
  cases r <;> decide

theorem digest_tree (c : Condition) : (c.tree kinds).digest = .ok (digestText kinds c) := by
  have digest : (c.tree kinds).digest
      = .ok ("" ++ Tree.plainLabel c.relation.title ++ String.join
          [spelling c.first ++ declaration kinds c.first,
            spelling c.second ++ declaration kinds c.second]) := by
    unfold Condition.tree
    cases c.first <;> cases c.second <;> rfl
  rw [digest, plainLabel_title]
  simp [String.join, digestText, String.append_assoc]

/-- No label of a type occurs in a synonym, which has letters only at its front. -/
theorem legible_synonym {x : String} (synonym : isSynonym x = true) (kind : Kind)
    : Legible kind.label x := by
  obtain ⟨c, ds, heading, letter, digits⟩ := isSynonym_iff.mp synonym
  refine .synonym (by cases kind <;> decide) (Query.isQuotable_iff.mpr ⟨c, ds, heading, letter, ?_⟩) ?_
  · exact fun d member => by simp [Query.isNameChar, isLetterOrDigit, digits d member]
  · intro label known
    have letters : ∀ label ∈ Tree.entityLabels, ∃ l l' ls, label.toList = l :: l' :: ls
        ∧ isDigit l = false ∧ isDigit l' = false := by
      intro label known
      fin_cases known <;> exact ⟨_, _, _, rfl, by decide, by decide⟩
    obtain ⟨l, l', ls, spelled, first, second⟩ := letters label known
    rw [← Bool.not_eq_true, occursIn_iff, spelled, heading]
    rintro ⟨front, back, split⟩
    cases front with
    | nil =>
      obtain ⟨-, rest⟩ : l = c ∧ l' :: (ls ++ back) = ds := by simpa using split
      rw [digits l' (by simp [← rest])] at second
      cases second
    | cons d front =>
      obtain ⟨-, rest⟩ : d = c ∧ front ++ (l :: l' :: (ls ++ back)) = ds := by simpa using split
      rw [digits l (by simp [← rest])] at first
      cases first

theorem legible_term {t : Term} (spelled : ∀ x, t = .synonym x → isSynonym x = true)
    : Legible (declaration kinds t) (spelling t) := by
  cases t with
  | synonym x => exact legible_synonym (spelled x rfl) _
  | line n =>
    obtain ⟨nonempty, digits⟩ := showInt_digits n
    obtain ⟨c, cs, heading⟩ := List.exists_cons_of_ne_nil nonempty
    exact .line (isNumeral_iff.mpr ⟨c, cs, heading, heading ▸ digits⟩)

theorem term_inj {t t' : Term} (declared : declaration kinds t = declaration kinds t')
    (same : spelling t = spelling t')
    : t = t' := by
  have label (kind : Kind) : kind.label ≠ "INTEGER" := by cases kind <;> decide
  cases t with
  | synonym x =>
    cases t' with
    | synonym x' => exact congrArg Term.synonym same
    | line n => exact absurd declared (label _)
  | line n =>
    cases t' with
    | synonym x => exact absurd declared.symm (label _)
    | line n' => rw [showInt_injective same]

def plainRelations : List RelationName :=
  [.follows, .parent, .modifies, .uses, .calls, .next]

theorem plain_mem (allowed : r.Allows first second)
    : r.plain ∈ plainRelations := by
  cases r <;> first | decide | exact allowed.elim

/-- Without the star, relations are told apart by their first letter. -/
theorem plain_inj (plain : r ∈ plainRelations)
    (plain' : r' ∈ plainRelations) {rest : List Char}
    (same : r.title.toList ++ rest = r'.title.toList ++ rest')
    : r = r' ∧ rest = rest' := by
  have nonempty (r : RelationName) : r.title.toList ≠ [] := by cases r <;> decide
  have letters : r.title.toList.head? = r'.title.toList.head? := by
    have heads := congrArg List.head? same
    rwa [List.head?_append_of_ne_nil _ (nonempty r), List.head?_append_of_ne_nil _ (nonempty r')]
      at heads
  have equal : r = r' := by
    have initials : ∀ r ∈ plainRelations, ∀ r' ∈ plainRelations,
        r.title.toList.head? = r'.title.toList.head? → r = r' := by decide
    exact initials r plain r' plain' letters
  subst equal
  exact ⟨rfl, List.append_cancel_left same⟩

/-- Conditions with the same digest differ at most by a star. -/
theorem digestText_inj (spelled : c.Spelled) (spelled' : c'.Spelled)
    (plain : c.relation.plain ∈ plainRelations) (plain' : c'.relation.plain ∈ plainRelations)
    (same : digestText kinds c = digestText kinds c')
    : c.relation.plain = c'.relation.plain ∧ c.first = c'.first ∧ c.second = c'.second := by
  have legible {c : Condition} (spelled : c.Spelled)
      : Legible (declaration kinds c.first) (spelling c.first)
        ∧ Legible (declaration kinds c.second) (spelling c.second) :=
    ⟨legible_term fun x first => spelled x (Condition.mem_synonyms.mpr (.inl first)),
      legible_term fun x second => spelled x (Condition.mem_synonyms.mpr (.inr second))⟩
  have texts : c.relation.plain.title.toList ++ (spelling c.first ++ declaration kinds c.first
        ++ (spelling c.second ++ declaration kinds c.second)).toList
      = c'.relation.plain.title.toList ++ (spelling c'.first ++ declaration kinds c'.first
        ++ (spelling c'.second ++ declaration kinds c'.second)).toList := by
    simpa [digestText] using congrArg String.toList same
  obtain ⟨relation, texts⟩ := plain_inj plain plain' texts
  obtain ⟨first, second⟩ := (legible spelled).1.inj (legible spelled').1 (legible spelled).2
    (legible spelled').2 texts
  exact ⟨relation, term_inj first.1 first.2, term_inj second.1 second.2⟩

def firsts {α : Type} (key : α → String) : List α → List α
  | [] => []
  | a :: rest => a :: (firsts key rest).filter (key · != key a)

section Firsts

variable {α β : Type} {key : α → String} {xs : List α} {a b : α}

theorem distinct_map {f : α → β}
    : distinct (xs.map fun a => (key a, f a)) = (firsts key xs).map fun a => (key a, f a) := by
  induction xs with
  | nil => rfl
  | cons a rest ih => simp [distinct, firsts, ih, List.filter_map, Function.comp_def]

theorem mem_of_mem_firsts (member : a ∈ firsts key xs) : a ∈ xs := by
  induction xs with
  | nil => exact member
  | cons b rest ih =>
    rcases List.mem_cons.mp member with rfl | member
    · simp
    · exact List.mem_cons_of_mem _ (ih (List.mem_filter.mp member).1)

theorem nodup_firsts : ((firsts key xs).map key).Nodup := by
  induction xs with
  | nil => exact .nil
  | cons a rest ih =>
    refine List.nodup_cons.mpr ⟨fun member => ?_, ih.sublist ((List.filter_sublist).map key)⟩
    obtain ⟨b, inRest, same⟩ := List.mem_map.mp member
    simp [same] at inRest

/-- What is left out comes after something kept under the same key. -/
theorem exists_mem_firsts {before : α → α → Prop} (sorted : xs.Pairwise before) (member : a ∈ xs)
    : ∃ b ∈ firsts key xs, key b = key a ∧ (b = a ∨ before b a) := by
  induction xs with
  | nil => simp at member
  | cons c rest ih =>
    obtain ⟨first, sorted⟩ := List.pairwise_cons.mp sorted
    rcases List.mem_cons.mp member with rfl | member
    · exact ⟨a, by simp [firsts], rfl, .inl rfl⟩
    · by_cases same : key c = key a
      · exact ⟨c, by simp [firsts], same, .inr (first a member)⟩
      · obtain ⟨b, inFirsts, equal, order⟩ := ih sorted member
        refine ⟨b, ?_, equal, order⟩
        simp [firsts, List.mem_filter, inFirsts, equal, Ne.symm same]

end Firsts

def relationWeight (r : RelationName) : Nat :=
  (laxity? r.title).getD 0

def weight (kinds : String → Kind) (c : Condition) : Nat :=
  relationWeight c.relation + (laxity? (declaration kinds c.first)).getD 0
    + (laxity? (declaration kinds c.second)).getD 0

theorem laxity_eq {label : String} (known : (laxity? label).isSome = true)
    : laxity label = .ok ((laxity? label).getD 0) := by
  obtain ⟨n, found⟩ := Option.isSome_iff_exists.mp known
  simp [laxity, found]

theorem conditionLaxity_tree (allowed : c.relation.Allows first second)
    : conditionLaxity (c.tree kinds) = .ok (weight kinds c) := by
  have relation : (laxity? c.relation.title).isSome = true := by
    revert allowed
    cases c.relation <;> intro allowed <;> first | rfl | exact allowed.elim
  have argument (t : Term) : (laxity? (declaration kinds t)).isSome = true := by
    cases t with
    | line n => rfl
    | synonym x => cases kind : kinds x <;> simp only [declaration, kind] <;> rfl
  have labels : conditionLaxity (c.tree kinds) = (do
      let relation ← laxity c.relation.title
      let first ← laxity (declaration kinds c.first)
      let second ← laxity (declaration kinds c.second)
      return relation + first + second) := by
    unfold Condition.tree
    cases c.first <;> cases c.second <;> rfl
  rw [labels, laxity_eq relation, laxity_eq (argument c.first), laxity_eq (argument c.second)]
  rfl

/-- Of two relations that differ by a star, the one without it restricts more. -/
theorem eq_or_plain_of_weight (same : r.plain = r'.plain)
    (lighter : relationWeight r ≤ relationWeight r')
    : r = r' ∨ r = r'.plain := by
  revert same lighter
  cases r <;> cases r' <;> decide

/-- The conditions as they are worked out: one for each that is told apart, and where two differ by a
star, the one without it. -/
structure Arranges (conditions kept : List Condition) : Prop where
  subset : ∀ c ∈ kept, c ∈ conditions
  unique : kept.Nodup
  apart : ∀ c ∈ kept, ∀ c' ∈ kept, c.relation.plain = c'.relation.plain → c.first = c'.first →
    c.second = c'.second → c = c'
  covers : ∀ c ∈ conditions, ∃ c' ∈ kept, c'.first = c.first ∧ c'.second = c.second
    ∧ (c'.relation = c.relation ∨ c'.relation = c.relation.plain)

theorem mapM_eq_ok {α β : Type} {f : α → Asked β} {g : α → β} {xs : List α}
    (each : ∀ x ∈ xs, f x = .ok (g x))
    : xs.mapM f = .ok (xs.map g) := by
  induction xs with
  | nil => rfl
  | cons x rest ih =>
    rw [List.mapM_cons, each x (by simp), ih fun x member => each x (by simp [member])]
    rfl

theorem byLaxity_map {α : Type} {tree : α → Tree} {heaviness : α → Nat} {conditions : List α}
    (weighed : ∀ c ∈ conditions, conditionLaxity (tree c) = .ok (heaviness c))
    : byLaxity (conditions.map tree)
      = .ok ((conditions.mergeSort fun c c' => decide (heaviness c ≤ heaviness c')).map tree) := by
  have weighed' : (conditions.map tree).mapM (fun c => do return (← conditionLaxity c, c))
      = (.ok (conditions.map fun c => (heaviness c, tree c)) : Asked _) := by
    rw [List.mapM_map]
    refine mapM_eq_ok fun c member => ?_
    rw [Function.comp_apply, weighed c member]
    rfl
  have order : ((conditions.map fun c => (heaviness c, tree c)).mergeSort
      fun p q => decide (p.1 ≤ q.1))
      = (conditions.mergeSort fun c c' => decide (heaviness c ≤ heaviness c')).map
        fun c => (heaviness c, tree c) := by
    refine (List.map_mergeSort fun c _ c' _ => ?_).symm
    rfl
  unfold byLaxity
  rw [weighed']
  change Except.ok (((conditions.map fun c => (heaviness c, tree c)).mergeSort
    fun p q => decide (p.1 ≤ q.1)).map (·.2)) = _
  rw [order, List.map_map]
  rfl

/-- What is an image before it is put into another order is one afterwards. -/
theorem exists_map_of_perm {α β : Type} {f : α → β} {xs : List α} {ys : List β}
    (perm : ys.Perm (xs.map f))
    : ∃ zs : List α, zs.Perm xs ∧ ys = zs.map f := by
  have images : List.Forall₂ (fun y x => y = f x) (xs.map f) xs := by
    rw [← List.forall₂_map_right_iff (R := Eq), List.forall₂_eq_eq_eq]
  obtain ⟨zs, each, perm⟩ := List.perm_comp_forall₂ perm images
  rw [← List.forall₂_map_right_iff (R := Eq), List.forall₂_eq_eq_eq] at each
  exact ⟨zs, perm, each⟩

/-- Conditions are worked out by weight, and of several that are told apart by nothing one of the
lightest is kept. This does not depend on the order in which those that are kept come out of their set.
-/
theorem exists_arranged_of (order : Order) {α : Type} {tree : α → Tree} {heaviness : α → Nat}
    {key : α → String} {conditions : List α}
    (weighed : ∀ c ∈ conditions, conditionLaxity (tree c) = .ok (heaviness c))
    (digested : ∀ c ∈ conditions, (tree c).digest = .ok (key c))
    : ∃ kept : List α, arranged order (conditions.map tree) = .ok (kept.map tree)
        ∧ (∀ c ∈ kept, c ∈ conditions)
        ∧ (kept.map key).Nodup
        ∧ ∀ c ∈ conditions, ∃ c' ∈ kept, key c' = key c ∧ (c' = c ∨ heaviness c' ≤ heaviness c) := by
  let lighter (c c' : α) : Bool := decide (heaviness c ≤ heaviness c')
  let ordered := conditions.mergeSort lighter
  have members {c : α} : c ∈ ordered ↔ c ∈ conditions := List.mem_mergeSort
  have sorted : ordered.Pairwise fun c c' => heaviness c ≤ heaviness c' := by
    have sorted : ordered.Pairwise fun c c' => lighter c c' = true :=
      List.pairwise_mergeSort (by simp [lighter]; omega) (by simp [lighter]; omega) conditions
    simpa [lighter] using sorted
  obtain ⟨kept, perm, same⟩ :=
    exists_map_of_perm (order.conditions_perm ((firsts key ordered).map tree))
  have again : (kept.mergeSort lighter).Perm (firsts key ordered) :=
    (List.mergeSort_perm kept lighter).trans perm
  have inside {c : α} (member : c ∈ kept.mergeSort lighter) : c ∈ conditions :=
    members.mp (mem_of_mem_firsts (again.mem_iff.mp member))
  refine ⟨kept.mergeSort lighter, ?_, fun c => inside, (again.map key).nodup_iff.mpr nodup_firsts,
    fun c member => ?_⟩
  · have digested' : (ordered.map tree).mapM (fun c => do return (← c.digest, c))
        = (.ok (ordered.map fun c => (key c, tree c)) : Asked _) := by
      rw [List.mapM_map]
      refine mapM_eq_ok fun c member => ?_
      rw [Function.comp_apply, digested c (members.mp member)]
      rfl
    have firstOnes : (distinct (ordered.map fun c => (key c, tree c))).map (·.2)
        = (firsts key ordered).map tree := by
      rw [distinct_map, List.map_map]
      rfl
    have reweighed (c : α) (member : c ∈ kept) : conditionLaxity (tree c) = .ok (heaviness c) :=
      weighed c (inside (List.mem_mergeSort.mpr member))
    unfold arranged
    rw [byLaxity_map weighed]
    change (do
      let entries ← (ordered.map tree).mapM fun c => do return (← c.digest, c)
      byLaxity (order.conditions ((distinct entries).map (·.2))) : Asked (List Tree)) = _
    rw [digested']
    change byLaxity (order.conditions ((distinct _).map _)) = _
    rw [firstOnes, same, byLaxity_map reweighed]
  · obtain ⟨c', isFirst, found⟩ := exists_mem_firsts sorted (members.mpr member)
    exact ⟨c', again.mem_iff.mpr isFirst, found⟩

theorem exists_arranged (order : Order) (spelled : ∀ c ∈ conditions, c.Spelled)
    (allowed : ∀ c ∈ conditions, c.relation.Allows (c.firstKind kinds) (c.secondKind kinds))
    : ∃ kept, arranged order (conditions.map (·.tree kinds)) = .ok (kept.map (·.tree kinds))
        ∧ Arranges conditions kept := by
  have weighed (c : Condition) (member : c ∈ conditions)
      : conditionLaxity (c.tree kinds) = .ok (weight kinds c) :=
    conditionLaxity_tree (allowed c member)
  obtain ⟨kept, arranged, subset, unique, covers⟩ :=
    exists_arranged_of order weighed fun c _ => digest_tree c
  refine ⟨kept, arranged, subset, unique.of_map _, ?_, ?_⟩
  · intro c member c' member' relation first second
    refine List.inj_on_of_nodup_map unique member member' ?_
    rw [digestText, relation, first, second, digestText]
  · intro c member
    obtain ⟨c', isKept, same, order⟩ := covers c member
    have member' := subset c' isKept
    obtain ⟨relation, first, second⟩ := digestText_inj (spelled c' member') (spelled c member)
      (plain_mem (allowed c' member')) (plain_mem (allowed c member)) same
    refine ⟨c', isKept, first, second, ?_⟩
    rcases order with rfl | lighter
    · exact .inl rfl
    · refine eq_or_plain_of_weight relation ?_
      simp only [weight, first, second] at lighter
      omega

theorem holds_of_plain {e e' : Entity} (holds : p.Holds r.plain e e')
    : p.Holds r e e' := by
  have lines {rel : Nat → Nat → Prop} (holds : onLines rel e e') : onLines (TransGen rel) e e' := by
    obtain ⟨a, b, step, rfl, rfl⟩ := holds.lines
    exact onLines_line.mpr (.single step)
  cases r with
  | followsStar => exact lines holds
  | parentStar => exact lines holds
  | nextStar => exact lines holds
  | callsStar =>
    obtain ⟨a, b, calls, rfl, rfl⟩ := onNames.names holds
    exact TransGen.single calls
  | _ => exact holds

/-- The conditions that are kept are met by the same choices. -/
theorem Arranges.meets_iff (arranges : Arranges conditions kept) {choice : String → Entity}
    : Meets p kinds kept choice ↔ Meets p kinds conditions choice := by
  constructor
  · intro meets
    refine ⟨fun c member x occurs => ?_, fun c member => ?_⟩
    · obtain ⟨c', member', first, second, -⟩ := arranges.covers c member
      refine meets.fits c' member' x (Condition.mem_synonyms.mpr ?_)
      rw [first, second]
      exact Condition.mem_synonyms.mp occurs
    · obtain ⟨c', member', first, second, relation⟩ := arranges.covers c member
      have holds := meets.holds c' member'
      rw [first, second] at holds
      rcases relation with same | plain
      · rwa [same] at holds
      · exact holds_of_plain (plain ▸ holds)
  · exact fun meets => ⟨fun c member => meets.fits c (arranges.subset c member),
      fun c member => meets.holds c (arranges.subset c member)⟩

/-- Where the links between the synonyms form no cycle, neither do the conditions that are kept. -/
theorem Arranges.tame (arranges : Arranges conditions kept)
    (forest : Forest (conditions.filterMap Condition.link?).eraseDups)
    : Tame kept := by
  intro c member x y joins linked
  obtain ⟨a, b, first, second⟩ :=
    Condition.link?_isSome.mp (Condition.exists_joins_iff.mp ⟨x, y, joins⟩)
  have isLink {t : Condition} {a b : String} (inKept : t ∈ kept) (first : t.first = .synonym a)
      (second : t.second = .synonym b)
      : (⟨t.relation.plain, a, b⟩ : Link) ∈ (conditions.filterMap Condition.link?).eraseDups := by
    refine List.mem_eraseDups.mpr (List.mem_filterMap.mpr ⟨t, arranges.subset t inKept, ?_⟩)
    simp [Condition.link?, first, second]
  have connected : Connected ((conditions.filterMap Condition.link?).eraseDups.erase
      ⟨c.relation.plain, a, b⟩) x y := by
    clear joins
    induction linked with
    | refl => exact .refl
    | @tail y z _ step ih =>
      obtain ⟨t, ⟨inKept, differs⟩, joins'⟩ := step
      obtain ⟨a', b', first', second'⟩ :=
        Condition.link?_isSome.mp (Condition.exists_joins_iff.mp ⟨y, z, joins'⟩)
      refine ih.tail ⟨⟨t.relation.plain, a', b'⟩, ?_, ?_⟩
      · refine (List.mem_erase_of_ne fun same => differs ?_).mpr (isLink inKept first' second')
        obtain ⟨relation, rfl, rfl⟩ : t.relation.plain = c.relation.plain ∧ a' = a ∧ b' = b := by
          simpa using same
        exact arranges.apart t inKept c member relation (first'.trans first.symm)
          (second'.trans second.symm)
      · simpa [Condition.Joins, first', second'] using joins'
  have ends : (x = a ∧ y = b) ∨ (x = b ∧ y = a) :=
    (show c.Joins a b from .inl ⟨first, second⟩).ends joins
  have bridge := forest _ (isLink member first second)
  rcases ends with ⟨rfl, rfl⟩ | ⟨rfl, rfl⟩
  · exact bridge connected
  · exact bridge connected.symm

end ProgramQuery.Evaluation

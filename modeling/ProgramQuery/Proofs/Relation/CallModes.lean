import ProgramQuery.Proofs.Relation.StarModes

/-! Calls is answered exactly between procedures, with and without a star. -/

open Relation (TransGen)

namespace ProgramQuery

open Text ProgramQuery.Relation

section

variable {p : Program} {knowledge : KnowledgeBase} {x y v w : Entity}
  (describes : knowledge.Describes p) (named : p.Named) {rel : String → String → Prop}
  {callees callers : Entity → List String} {holds : Entity → Entity → Bool}

/-- Every procedure that is called is declared. -/
def Program.CalleesDeclared (p : Program) : Prop :=
  ∀ line callee, (line, Stmt.call callee) ∈ p.listing →
    ∃ procedure ∈ p.procedures, procedure.name = callee

instance (p : Program) : Decidable p.CalleesDeclared :=
  decidable_of_iff
    (∀ entry ∈ p.listing, ∀ callee ∈ entry.2.callee?,
      ∃ procedure ∈ p.procedures, procedure.name = callee) <| by
    simp only [Program.CalleesDeclared, Option.mem_def, Stmt.callee?_eq_some]
    exact ⟨fun all line callee listed => all _ listed callee rfl,
      fun all entry listed callee same => all entry.1 callee (same ▸ listed)⟩

def Program.RelatesProcedures (p : Program) (rel : String → String → Prop) : Prop :=
  ∀ a b, rel a b → p.Fits .procedure (.name a) ∧ p.Fits .procedure (.name b)

theorem Program.CalleesDeclared.relates (declared : p.CalleesDeclared)
    : p.RelatesProcedures p.Calls := by
  rintro a b ⟨procedure, member, rfl, s, inBody, within⟩
  obtain ⟨line, listed⟩ := Program.exists_line_iff.mpr ⟨procedure, member, s, inBody, within⟩
  exact ⟨.inl ⟨rfl, procedure, member, rfl⟩, .inl ⟨rfl, declared line b listed⟩⟩

theorem Program.RelatesProcedures.transGen (relates : p.RelatesProcedures rel)
    : p.RelatesProcedures (TransGen rel) := by
  intro a b path
  obtain ⟨c, step⟩ := transGen_left_iff.mp ⟨b, path⟩
  obtain ⟨d, step'⟩ := transGen_right_iff.mp ⟨a, path⟩
  exact ⟨(relates a c step).1, (relates d b step').2⟩

/-- Where calls end, none leads back to a declared procedure. -/
theorem Program.Lists.acyclic (lists : p.Lists p.callGrid.called?) {a : String}
    (fits : p.Fits .procedure (.name a))
    : ¬ TransGen p.Calls a a := by
  intro path
  obtain ⟨-, procedure, member, rfl⟩ | ⟨impossible, -⟩ := fits
  · refine Program.lists_called?_iff.mp lists _ (List.mem_map_of_mem member) ?_
    rw [Grid.Endless, Program.leads_callGrid]
    exact ⟨_, .refl, path⟩
  · cases impossible

/-- A name that is asked about stands for itself, unless it is a numeral. -/
theorem Stands.eq_name_iff (stands : Stands v x) (askable : p.Askable .procedure x)
    (named : p.Named) {a : String} (fits : p.Fits .procedure (.name a))
    : v = .name a ↔ x = .name a := by
  rcases askable.cases with ⟨line, rfl, -⟩ | ⟨b, rfl, -⟩
  · have numeral := isName_ne_showInt (named.isName fits) line
    rcases stands with rfl | rfl <;> simp [Entity.byText, Entity.text, numeral.symm]
  · rcases stands with rfl | rfl <;> simp [Entity.byText, Entity.text]

theorem onNames_iff : onNames rel x y ↔ ∃ a b, rel a b ∧ x = .name a ∧ y = .name b :=
  ⟨onNames.names, fun ⟨_, _, holds, left, right⟩ => left ▸ right ▸ holds⟩

/-- Names are looked up by themselves and numbers in vain. -/
theorem mem_byName {found : String → List String} (named : p.Named)
    (rows : ∀ a c, c ∈ found a ↔ rel a c)
    (declared : ∀ a c, rel a c → p.Fits .procedure (.name a)) (askable : p.Askable .procedure x)
    (stands : Stands v x) (c : String)
    : c ∈ byName found v ↔ onNames rel x (.name c) := by
  have looked : c ∈ byName found v ↔ ∃ a, rel a c ∧ v = .name a := by
    cases v <;> simp [byName, rows]
  rw [looked, onNames_iff]
  constructor
  · rintro ⟨a, holds, same⟩
    exact ⟨a, c, holds, (stands.eq_name_iff askable named (declared a c holds)).mp same, rfl⟩
  · rintro ⟨a, _, holds, same, ⟨⟩⟩
    exact ⟨a, holds, (stands.eq_name_iff askable named (declared a c holds)).mpr same⟩

theorem onNames_of_mem {xs : List String}
    (all : ∀ c, c ∈ xs ↔ onNames rel x (.name c)) (e : Entity)
    : e ∈ Relation.names xs ↔ onNames rel x e := by
  simp only [Relation.names, List.mem_map, all]
  constructor
  · rintro ⟨c, holds, rfl⟩
    exact holds
  · intro holds
    obtain ⟨a, c, -, -, rfl⟩ := holds.names
    exact ⟨c, holds, rfl⟩

/-- What is looked up about two names is what holds of the things that they stand for. -/
theorem onNames_of_looked (named : p.Named) (relates : p.RelatesProcedures rel)
    (left : p.Askable .procedure x) (right : p.Askable .procedure y) (standsLeft : Stands v x)
    (standsRight : Stands w y) {answer : Bool}
    (looked : answer = true ↔ ∃ a b, rel a b ∧ v = .name a ∧ w = .name b)
    : answer = true ↔ onNames rel x y := by
  rw [looked, onNames_iff]
  refine exists₂_congr fun a b => and_congr_right fun holds => ?_
  rw [standsLeft.eq_name_iff left named (relates a b holds).1,
    standsRight.eq_name_iff right named (relates a b holds).2]

theorem onNames_flip : onNames (fun b a => rel a b) y x ↔ onNames rel x y := by
  cases x <;> cases y <;> simp [onNames]

theorem names_filter_missing (xs : List String)
    : (Relation.names xs).filter (· ≠ .missing) = Relation.names xs := by
  simp [Relation.names, List.filter_map, Function.comp_def]

include describes in
theorem KnowledgeBase.Describes.calls_orderly : knowledge.calls.Orderly :=
  describes.calls ▸ .ofPairs _

include describes in
theorem KnowledgeBase.Describes.mem_columnsOf_calls {a b : String}
    : b ∈ knowledge.calls.columnsOf a ↔ p.Calls a b := by
  rw [describes.calls, Program.mem_columnsOf_callGrid]

include describes in
theorem KnowledgeBase.Describes.mem_rowsWith_calls {a b : String}
    : a ∈ knowledge.calls.rowsWith b ↔ p.Calls a b := by
  rw [describes.calls_orderly.mem_rowsWith, describes.mem_columnsOf_calls]

include describes in
theorem KnowledgeBase.Describes.mem_rowNames_calls {a : String}
    : a ∈ knowledge.calls.rowNames ↔ ∃ b, p.Calls a b := by
  rw [describes.calls, Program.mem_rowNames_callGrid]

include describes in
theorem KnowledgeBase.Describes.mem_allColumns_calls {b : String}
    : b ∈ knowledge.calls.allColumns ↔ ∃ a, p.Calls a b := by
  simp only [describes.calls_orderly.mem_allColumns, describes.mem_columnsOf_calls]

include describes in
theorem KnowledgeBase.Describes.marked_calls {a b : String}
    : knowledge.calls.marked a b = true ↔ p.Calls a b := by
  rw [← describes.mem_columnsOf_calls]
  exact (describes.calls ▸ Grid.Marks.ofPairs _ : knowledge.calls.Marks).marked_iff

include describes in
/-- Both call relations find what is called and what calls, and both have the same procedures on their
sides. -/
theorem Relation.callModes_exact (relates : p.RelatesProcedures rel)
    (left : ∀ a, (∃ b, rel a b) ↔ ∃ b, p.Calls a b)
    (right : ∀ b, (∃ a, rel a b) ↔ ∃ a, p.Calls a b)
    (afters : ∀ {x v}, p.Askable .procedure x → Stands v x →
      ∀ c, c ∈ callees v ↔ onNames rel x (.name c))
    (befores : ∀ {y w}, p.Askable .procedure y → Stands w y →
      ∀ c, c ∈ callers w ↔ onNames rel (.name c) y)
    (member : ∀ {x y v w}, p.Askable .procedure x → p.Askable .procedure y → Stands v x →
      Stands w y → (holds v w = true ↔ onNames rel x y))
    : (callModes knowledge callees callers holds).Exact p (onNames rel) .procedure .procedure := by
  have fits {x y : Entity} (holds : onNames rel x y)
      : p.Fits .procedure x ∧ p.Fits .procedure y := by
    obtain ⟨a, b, holds, rfl, rfl⟩ := holds.names
    exact relates a b holds
  have before {y w : Entity} (right : p.Askable .procedure y) (stands : Stands w y) (x : Entity)
      : x ∈ Relation.names (callers w) ↔ p.Fits .procedure x ∧ onNames rel x y := by
    have all (c : String) : c ∈ callers w ↔ onNames (fun b a => rel a b) y (.name c) :=
      (befores right stands c).trans onNames_flip.symm
    rw [onNames_of_mem all x, onNames_flip]
    exact (and_iff_right_of_imp fun holds => (fits holds).1).symm
  constructor
  case member =>
    intro x y v w left right standsLeft standsRight
    exact .ok (member left right standsLeft standsRight)
  case after =>
    intro x v left stands
    refine .ok fun y => ?_
    rw [onNames_of_mem (afters left stands) y]
    exact (and_iff_right_of_imp fun holds => (fits holds).2).symm
  case before =>
    intro y w right stands
    exact .ok fun x => by rw [names_filter_missing]; exact before right stands x
  case sides =>
    refine .ok ⟨fun x => ?_, fun y => ?_⟩
    · simp only [Relation.names, List.mem_map, describes.mem_rowNames_calls, ← left]
      constructor
      · rintro ⟨a, ⟨b, holds⟩, rfl⟩
        exact ⟨(relates a b holds).1, .name b, (relates a b holds).2, holds⟩
      · rintro ⟨-, y, -, holds⟩
        obtain ⟨a, b, holds, rfl, rfl⟩ := holds.names
        exact ⟨a, ⟨b, holds⟩, rfl⟩
    · simp only [Relation.names, List.mem_map, describes.mem_allColumns_calls, ← right]
      constructor
      · rintro ⟨b, ⟨a, holds⟩, rfl⟩
        exact ⟨(relates a b holds).2, .name a, (relates a b holds).1, holds⟩
      · rintro ⟨-, x, -, holds⟩
        obtain ⟨a, b, holds, rfl, rfl⟩ := holds.names
        exact ⟨b, ⟨a, holds⟩, rfl⟩
  case beforeFixed =>
    intro y w right stands fixed
    simp only [callModes, if_neg fixed]
    exact .ok (before right stands)

theorem Relation.callModes_plain : (callModes knowledge callees callers holds).Plain := by
  constructor <;> intros <;> simp_all [callModes]

include describes named in
theorem Relation.Calls.modes_exact (declared : p.CalleesDeclared)
    : (Calls.modes knowledge).Exact p (onNames p.Calls) .procedure .procedure := by
  have relates := declared.relates
  refine callModes_exact describes relates (fun _ => .rfl) (fun _ => .rfl) ?_ ?_ ?_
  · intro x v askable stands
    exact mem_byName named (fun a c => describes.mem_columnsOf_calls)
      (fun a c holds => (relates a c holds).1) askable stands
  · intro y w askable stands c
    rw [← onNames_flip]
    exact mem_byName named (fun b a => describes.mem_rowsWith_calls)
      (fun b a holds => (relates a b holds).2) askable stands c
  · intro x y v w left right standsLeft standsRight
    have looked : Calls.holds knowledge v w = true
        ↔ ∃ a b, p.Calls a b ∧ v = .name a ∧ w = .name b := by
      cases v <;> cases w <;> simp [Calls.holds, describes.marked_calls]
    exact onNames_of_looked named relates left right standsLeft standsRight looked

/-- No chain of steps from a name is as long as a bound. -/
def Bounded (rel : String → String → Prop) (name : String) (bound : Nat) : Prop :=
  ∀ path, List.IsChain rel (name :: path) → path.length < bound

section Bounded

variable {name other : String} {bound depth : Nat}

theorem not_bounded_zero : ¬ Bounded rel name 0 :=
  fun bounded => absurd (bounded [] (.singleton _)) (Nat.not_lt_zero _)

theorem Bounded.mono (bounded : Bounded rel name bound) (le : bound ≤ depth)
    : Bounded rel name depth :=
  fun path chain => (bounded path chain).trans_le le

theorem Bounded.next (bounded : Bounded rel name (bound + 1)) (step : rel name other)
    : Bounded rel other bound := by
  intro path chain
  have shorter := bounded (other :: path) (.cons_cons step chain)
  rw [List.length_cons] at shorter
  omega

/-- Without cycles no name comes up twice in a chain. -/
theorem nodup_of_chain (acyclic : ∀ a, ¬ TransGen rel a a) {names : List String}
    (chain : List.IsChain rel names)
    : names.Nodup := by
  have onward : names.Pairwise (TransGen rel) :=
    (chain.imp fun _ _ step => TransGen.single step).pairwise
  refine onward.imp ?_
  rintro a _ path rfl
  exact acyclic a path

theorem bounded_of_sources (acyclic : ∀ a, ¬ TransGen rel a a) {rows : List String}
    (sources : ∀ a b, rel a b → a ∈ rows) (name : String)
    : Bounded rel name (rows.length + 1) := by
  intro path chain
  have bound := ((nodup_of_chain acyclic chain).sublist
    (List.dropLast_sublist _)).length_le_of_subset (sources_of_chain sources chain)
  rw [List.length_dropLast, List.length_cons] at bound
  omega

theorem bounded_of_targets (acyclic : ∀ a, ¬ TransGen rel a a) {rows : List String}
    (targets : ∀ a b, rel a b → b ∈ rows) (name : String)
    : Bounded rel name (rows.length + 1) := by
  intro path chain
  have inside : ∀ row ∈ path, row ∈ rows := by
    induction path generalizing name with
    | nil => simp
    | cons next rest ih =>
      rw [List.isChain_cons_cons] at chain
      rw [List.forall_mem_cons]
      exact ⟨targets _ _ chain.1, ih next chain.2⟩
  have unique := (List.nodup_cons.mp (nodup_of_chain acyclic chain)).2
  exact Nat.lt_succ_of_le (unique.length_le_of_subset inside)

namespace Relation.CallsStar

section Reached

variable {step : String → List String} (steps : ∀ a b, b ∈ step a ↔ rel a b)
include steps

/-- Where chains are short enough, exactly what can be reached is found. The induction is on the bound of
their lengths, which each step lowers. -/
theorem mem_reachedUpTo (bounded : Bounded rel name bound)
    : other ∈ reachedUpTo step bound name ↔ TransGen rel name other := by
  induction bound generalizing name with
  | zero => exact absurd bounded not_bounded_zero
  | succ bound ih =>
    simp only [reachedUpTo, List.mem_eraseDups, List.mem_append, List.mem_flatMap, steps]
    rw [TransGen.head'_iff]
    constructor
    · rintro (step | ⟨next, step, further⟩)
      · exact ⟨other, step, .refl⟩
      · exact ⟨next, step, ((ih (bounded.next step)).mp further).to_reflTransGen⟩
    · rintro ⟨next, step, rest⟩
      rcases Relation.reflTransGen_iff_eq_or_transGen.mp rest with rfl | rest
      · exact .inl step
      · exact .inr ⟨next, step, (ih (bounded.next step)).mpr rest⟩

/-- The search has come to its end then: no greater depth finds anything else. -/
theorem reachedUpTo_of_bounded (bounded : Bounded rel name bound) (le : bound ≤ depth)
    : reachedUpTo step depth name = reachedUpTo step bound name := by
  induction bound generalizing name depth with
  | zero => exact absurd bounded not_bounded_zero
  | succ bound ih =>
    obtain ⟨depth, rfl⟩ := Nat.exists_eq_add_of_le' (Nat.one_le_of_lt le)
    have further : (step name).flatMap (reachedUpTo step depth)
        = (step name).flatMap (reachedUpTo step bound) :=
      List.flatMap_congr fun next member =>
        ih (bounded.next ((steps _ _).mp member)) (Nat.le_of_succ_le_succ le)
    rw [reachedUpTo, reachedUpTo, further]

end Reached

/-- The first procedure that leads to the other one is as good as all. -/
theorem leadsUpTo_iff (steps : ∀ a b, b ∈ knowledge.calls.columnsOf a ↔ rel a b)
    (acyclic : ∀ a, ¬ TransGen rel a a) (bounded : Bounded rel name bound)
    : leadsUpTo knowledge bound (.name name) y = true
      ↔ ∃ b, TransGen rel name b ∧ y = .name b := by
  induction bound generalizing name with
  | zero => exact absurd bounded not_bounded_zero
  | succ bound ih =>
    simp only [leadsUpTo, Calls.callees, byName, Bool.and_eq_true, bne_iff_ne, List.any_eq_true,
      Relation.names, List.mem_map, Bool.or_eq_true, beq_iff_eq, steps]
    constructor
    · rintro ⟨-, _, ⟨next, step, rfl⟩, rfl | further⟩
      · exact ⟨next, .single step, rfl⟩
      · obtain ⟨b, path, rfl⟩ := (ih (bounded.next step)).mp further
        exact ⟨b, .head step path, rfl⟩
    · rintro ⟨b, path, rfl⟩
      refine ⟨?_, ?_⟩
      · rintro ⟨⟩
        exact acyclic _ path
      · obtain ⟨next, step, rest⟩ := TransGen.head'_iff.mp path
        refine ⟨_, ⟨next, step, rfl⟩, ?_⟩
        rcases Relation.reflTransGen_iff_eq_or_transGen.mp rest with rfl | rest
        · exact .inl rfl
        · exact .inr ((ih (bounded.next step)).mpr ⟨b, rest, rfl⟩)

end Relation.CallsStar

end Bounded

namespace Relation.CallsStar

variable (declared : p.CalleesDeclared) (lists : p.Lists p.callGrid.called?)
include declared lists

omit describes in
theorem acyclic (a : String) : ¬ TransGen p.Calls a a :=
  fun path => lists.acyclic (declared.relates.transGen a a path).1 path

include describes

theorem bounded_calls (a : String) : Bounded p.Calls a (depth knowledge) := by
  rw [depth, ← Grid.length_rowNames]
  exact bounded_of_sources (acyclic declared lists)
    (fun _ b step => describes.mem_rowNames_calls.mpr ⟨b, step⟩) a

theorem bounded_called (b : String)
    : Bounded (fun b a => p.Calls a b) b (depth knowledge) := by
  rw [depth, ← Grid.length_rowNames]
  exact bounded_of_targets
    (fun a path => acyclic declared lists a (Relation.transGen_swap.mp path))
    (fun b _ step => describes.mem_rowNames_calls.mpr ⟨b, step⟩) b

theorem mem_callees {a c : String}
    : c ∈ CallsStar.callees knowledge (.name a) ↔ TransGen p.Calls a c :=
  mem_reachedUpTo (fun _ _ => describes.mem_columnsOf_calls)
    (bounded_calls describes declared lists a)

theorem mem_callers {a c : String}
    : c ∈ CallsStar.callers knowledge (.name a) ↔ TransGen p.Calls c a :=
  (mem_reachedUpTo (fun _ _ => describes.mem_rowsWith_calls)
    (bounded_called describes declared lists a)).trans Relation.transGen_swap

theorem holdsUpTo_iff {bound : Nat} (le : depth knowledge ≤ bound)
    : leadsUpTo knowledge bound v w = true
      ↔ ∃ a b, TransGen p.Calls a b ∧ v = .name a ∧ w = .name b := by
  cases v with
  | name a =>
    rw [leadsUpTo_iff (fun _ _ => describes.mem_columnsOf_calls) (acyclic declared lists)
      ((bounded_calls describes declared lists a).mono le)]
    simp
  | _ => cases bound <;> simp [leadsUpTo, Calls.callees, byName, Relation.names]

/-- All three searches come to their end: at any greater depth they find the same. -/
theorem ends {bound : Nat} (le : depth knowledge ≤ bound) (x y : Entity)
    : calleesUpTo knowledge bound x = CallsStar.callees knowledge x
      ∧ callersUpTo knowledge bound x = CallsStar.callers knowledge x
      ∧ leadsUpTo knowledge bound x y = CallsStar.holds knowledge x y := by
  refine ⟨?_, ?_, ?_⟩
  · cases x with
    | name a =>
      exact reachedUpTo_of_bounded (fun _ _ => describes.mem_columnsOf_calls)
        (bounded_calls describes declared lists a) le
    | _ => rfl
  · cases x with
    | name a =>
      exact reachedUpTo_of_bounded (fun _ _ => describes.mem_rowsWith_calls)
        (bounded_called describes declared lists a) le
    | _ => rfl
  · rw [Bool.eq_iff_iff, holdsUpTo_iff describes declared lists le]
    exact (holdsUpTo_iff describes declared lists le_rfl).symm

end Relation.CallsStar

include describes named in
theorem Relation.CallsStar.modes_exact (declared : p.CalleesDeclared)
    (lists : p.Lists p.callGrid.called?)
    : (CallsStar.modes knowledge).Exact p (onNames (TransGen p.Calls)) .procedure .procedure := by
  have relates := declared.relates.transGen
  refine callModes_exact describes relates (fun _ => transGen_left_iff)
    (fun _ => transGen_right_iff) ?_ ?_ ?_
  · intro x v askable stands
    exact mem_byName named (fun a c => CallsStar.mem_callees describes declared lists)
      (fun a c holds => (relates a c holds).1) askable stands
  · intro y w askable stands c
    rw [← onNames_flip]
    exact mem_byName named (fun b a => CallsStar.mem_callers describes declared lists)
      (fun b a holds => (relates a b holds).2) askable stands c
  · intro x y v w left right standsLeft standsRight
    exact onNames_of_looked named relates left right standsLeft standsRight
      (CallsStar.holdsUpTo_iff describes declared lists le_rfl)

end

end ProgramQuery

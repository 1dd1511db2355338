import Mathlib
import ProgramQuery.Fault

/-! Working through a list, with steps that may fail. -/

namespace ProgramQuery

variable {α β : Type} {xs : List α} {f : α → Option β}

/-- What can be checked member by member. For characters this is not the instance that would be found. -/
theorem forall_mem_of_all {property : α → Prop} [DecidablePred property]
    (checked : (xs.all fun x => decide (property x)) = true)
    : ∀ x ∈ xs, property x := by
  simpa using checked

/-- A result of which a test holds. -/
theorem exists_ok {ε α : Type} {result : Except ε α} {test : α → Bool}
    (passes : result.toOption.any test = true)
    : ∃ a, result = .ok a ∧ test a = true := by
  cases result with
  | ok a => exact ⟨a, rfl, passes⟩
  | error _ => cases passes

/-- There is a result of which something follows from facts that can be checked. -/
theorem exists_ok_of {ε α : Type} {result : Except ε α} {post : α → Prop} (facts : α → Prop)
    [DecidablePred facts] (checked : result.toOption.any (fun a => decide (facts a)) = true)
    (implies : ∀ a, result = .ok a → facts a → post a)
    : ∃ a, result = .ok a ∧ post a := by
  obtain ⟨a, same, holds⟩ := exists_ok checked
  exact ⟨a, same, implies a same (of_decide_eq_true holds)⟩

/-- A list is sorted out if each of its members can be tested. -/
theorem filterM_eq_filter {f : α → Asked Bool} {test : α → Bool}
    (tested : ∀ x ∈ xs, f x = .ok (test x))
    : xs.filterM f = .ok (xs.filter test) := by
  have kept (found : List α) : xs.filterAuxM f found = .ok ((xs.filter test).reverse ++ found) := by
    induction xs generalizing found with
    | nil => rfl
    | cons x rest ih =>
      have ⟨own, others⟩ := List.forall_mem_cons.mp tested
      rw [List.filterAuxM, own]
      cases passes : test x <;> simp [bind, Except.bind, ih others, passes]
  simp [List.filterM, kept, bind, Except.bind, pure, Except.pure]

/-- A list is worked through if each of its members is. -/
theorem mapM_eq_some_iff {ys : List β}
    : xs.mapM f = some ys ↔ List.Forall₂ (fun x y => f x = some y) xs ys := by
  induction xs generalizing ys with
  | nil => simp [eq_comm]
  | cons x rest ih =>
    cases step : f x with
    | none =>
      simp only [List.mapM_cons, step, Option.bind_eq_bind, Option.bind_none, reduceCtorEq,
        false_iff]
      rintro (_ | ⟨found, _⟩)
      simp [step] at found
    | some y =>
      simp only [List.mapM_cons, step, Option.bind_eq_bind, Option.bind_some]
      cases more : rest.mapM f with
      | none =>
        simp only [Option.bind_none, reduceCtorEq, false_iff]
        rintro (_ | ⟨_, tail⟩)
        simp [ih.mpr tail] at more
      | some zs =>
        simp only [Option.bind_some, Option.pure_def, Option.some.injEq]
        constructor
        · rintro rfl
          exact .cons step (ih.mp more)
        · rintro (_ | ⟨found, tail⟩)
          rw [step, Option.some.injEq] at found
          rw [ih.mpr tail, Option.some.injEq] at more
          rw [found, more]

theorem exists_mapM_eq_some (all : ∀ x ∈ xs, ∃ y, f x = some y)
    : ∃ ys, xs.mapM f = some ys := by
  induction xs with
  | nil => exact ⟨[], rfl⟩
  | cons x rest ih =>
    obtain ⟨y, found⟩ := all x (by simp)
    obtain ⟨ys, more⟩ := ih fun z member => all z (by simp [member])
    exact ⟨y :: ys, mapM_eq_some_iff.mpr (.cons found (mapM_eq_some_iff.mp more))⟩

/-- Where the list cannot be worked through, some member cannot. -/
theorem exists_eq_none_of_mapM (failed : xs.mapM f = none)
    : ∃ x ∈ xs, f x = none := by
  by_contra all
  push Not at all
  obtain ⟨ys, found⟩ := exists_mapM_eq_some (f := f) fun x member =>
    Option.ne_none_iff_exists'.mp (all x member)
  rw [failed] at found
  cases found

/-- Every member of the outcome comes from a member of the list, and the other way round. -/
theorem mem_of_forall₂ {r : α → β → Prop} {ys : List β} (all : List.Forall₂ r xs ys)
    : (∀ x ∈ xs, ∃ y ∈ ys, r x y) ∧ ∀ y ∈ ys, ∃ x ∈ xs, r x y := by
  induction all with
  | nil => simp
  | cons first _ ih =>
    constructor
    · intro x member
      rcases List.mem_cons.mp member with rfl | member
      · exact ⟨_, by simp, first⟩
      · obtain ⟨y, found, holds⟩ := ih.1 x member
        exact ⟨y, by simp [found], holds⟩
    · intro y member
      rcases List.mem_cons.mp member with rfl | member
      · exact ⟨_, by simp, first⟩
      · obtain ⟨x, found, holds⟩ := ih.2 y member
        exact ⟨x, by simp [found], holds⟩

/-- A list that is found member by member is found by a map. -/
theorem eq_map_of_forall₂ {f : α → β} {good : α → Prop} {ys : List β}
    (all : List.Forall₂ (fun x y => y = f x ∧ good x) xs ys)
    : ys = xs.map f ∧ ∀ x ∈ xs, good x := by
  induction all with
  | nil => simp
  | cons here _ ih =>
    obtain ⟨rfl, fine⟩ := here
    exact ⟨by rw [ih.1, List.map_cons], List.forall_mem_cons.mpr ⟨fine, ih.2⟩⟩

theorem hasMembers_iff : (!xs.isEmpty) = true ↔ ∃ x, x ∈ xs := by
  cases xs with
  | nil => simp
  | cons x rest => exact iff_of_true rfl ⟨x, by simp⟩

/-- A list without its repetitions repeats nothing. The rest of the list is shorter before it is
cleaned, so the induction is on its length. -/
theorem nodup_eraseDups [BEq α] [LawfulBEq α] (xs : List α) : xs.eraseDups.Nodup := by
  induction size : xs.length using Nat.strongRecOn generalizing xs with
  | _ n ih =>
    cases xs with
    | nil => simp
    | cons x rest =>
      rw [List.eraseDups_cons, List.nodup_cons, List.mem_eraseDups, List.mem_filter]
      refine ⟨by simp, ih _ ?_ _ rfl⟩
      rw [← size, List.length_cons]
      exact Nat.lt_succ_of_le (List.length_filter_le ..)

/-- More members have a weaker property, if one of them has nothing else. -/
theorem countP_lt_countP {p q : α → Bool} (wider : ∀ x, p x = true → q x = true)
    {x : α} (member : x ∈ xs) (isIn : q x = true) (isOut : p x = false)
    : xs.countP p < xs.countP q := by
  obtain ⟨before, after, rfl⟩ := List.append_of_mem member
  have front := List.countP_mono_left (l := before) fun y _ => wider y
  have back := List.countP_mono_left (l := after) fun y _ => wider y
  simp only [List.countP_append, List.countP_cons, isIn, isOut, if_true, Bool.false_eq_true,
    if_false]
  omega

/-- Without repetitions, members that are all the same are at most one. -/
theorem eq_nil_or_singleton (unique : xs.Nodup) (same : ∀ x ∈ xs, ∀ y ∈ xs, x = y)
    : xs = [] ∨ ∃ x, xs = [x] := by
  match xs with
  | [] => exact .inl rfl
  | [x] => exact .inr ⟨x, rfl⟩
  | x :: y :: rest =>
    have equal := same x (by simp) y (by simp)
    simp [equal] at unique

end ProgramQuery

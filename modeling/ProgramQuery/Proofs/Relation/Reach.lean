import Mathlib
import ProgramQuery.Relation.LineTable

/-! Following a step to the end. The fuel that closures and ascents are given is enough, so they find
exactly what can be reached.
-/

open Relation (ReflTransGen TransGen)

namespace ProgramQuery.Relation

section Closures

variable {α : Type} {step : α → List α} {todo seen : List α}

def outgoing (step : α → List α) (xs : List α) : Nat :=
  (xs.map fun x => (step x).length).sum

/-- Different members lead to different pairs, so there are no more of them than there are pairs. -/
theorem outgoing_le {pairs : List (α × α)} (once : ∀ x, (step x).Nodup)
    (listed : ∀ x, ∀ y ∈ step x, (x, y) ∈ pairs) {xs : List α} (unique : xs.Nodup)
    : outgoing step xs ≤ pairs.length := by
  have size : outgoing step xs = (xs.flatMap fun x => (step x).map (x, ·)).length := by
    simp [outgoing, List.length_flatMap]
  rw [size]
  refine List.Nodup.length_le_of_subset ?_ ?_
  · refine List.nodup_flatMap.mpr ⟨fun x _ => (once x).map (Prod.mk_right_injective x), ?_⟩
    refine unique.imp ?_
    intro x x' different pair member member'
    obtain ⟨_, _, rfl⟩ := List.mem_map.mp member
    obtain ⟨_, _, same⟩ := List.mem_map.mp member'
    exact different (Prod.mk.inj same).1.symm
  · intro pair member
    obtain ⟨x, _, inner⟩ := List.mem_flatMap.mp member
    obtain ⟨y, leads, rfl⟩ := List.mem_map.mp inner
    exact listed x y leads

/-- What a closure has seen leads to things that it has seen or has still to do. -/
structure Underway (step : α → List α) (start todo seen : List α) : Prop where
  unique : seen.Nodup
  sound : ∀ y, y ∈ seen ∨ y ∈ todo → ∃ x ∈ start, ReflTransGen (fun x y => y ∈ step x) x y
  started : ∀ x ∈ start, x ∈ seen ∨ x ∈ todo
  closed : ∀ x ∈ seen, ∀ y ∈ step x, y ∈ seen ∨ y ∈ todo

/-- With nothing to do, everything that can be reached has been seen. -/
theorem Underway.mem_seen {start : List α} (underway : Underway step start [] seen) (y : α)
    : y ∈ seen ↔ ∃ x ∈ start, ReflTransGen (fun x y => y ∈ step x) x y := by
  constructor
  · exact fun done => underway.sound y (Or.inl done)
  · rintro ⟨x, member, path⟩
    induction path with
    | refl => simpa using underway.started x member
    | tail _ leads ih => simpa using underway.closed _ ih _ leads

section Growing

variable [BEq α] [LawfulBEq α] {start : List α} {x : α}

theorem mem_noted {y : α} : y ∈ noted seen x ↔ y ∈ seen ∨ y = x := by
  unfold noted
  split
  · next old =>
    refine ⟨Or.inl, ?_⟩
    rintro (member | rfl)
    · exact member
    · exact List.contains_iff_mem.mp old
  · rw [List.mem_append, List.mem_singleton]

theorem nodup_noted (unique : seen.Nodup) : (noted seen x).Nodup := by
  unfold noted
  split
  · exact unique
  · next fresh =>
    refine List.nodup_append.mpr ⟨unique, List.nodup_singleton x, ?_⟩
    rintro y member z single rfl
    rw [List.mem_singleton.mp single] at member
    exact fresh (List.contains_iff_mem.mpr member)

/-- Whether or not the list grows, it then holds what the member leads to, and nothing else is new. -/
theorem mem_grown {y : α}
    : y ∈ seen ∨ y ∈ grown step seen todo x ↔ y ∈ seen ∨ y ∈ todo ∨ y ∈ step x := by
  unfold grown
  split
  · next all =>
    have there (member : y ∈ step x) : y ∈ seen ∨ y ∈ todo := by
      simpa using List.all_eq_true.mp all y member
    tauto
  · rw [List.mem_append]

theorem Underway.pass (underway : Underway step start (x :: todo) seen)
    : Underway step start (grown step (noted seen x) todo x) (noted seen x) := by
  have keep (y : α) (there : y ∈ seen ∨ y ∈ x :: todo)
      : y ∈ noted seen x ∨ y ∈ grown step (noted seen x) todo x := by
    rw [mem_grown, mem_noted]
    rw [List.mem_cons] at there
    tauto
  refine ⟨nodup_noted underway.unique, fun y there => ?_,
    fun y member => keep y (underway.started y member), fun z member y leads => ?_⟩
  · rw [mem_grown, mem_noted] at there
    rcases there with (old | rfl) | waiting | leads
    · exact underway.sound y (Or.inl old)
    · exact underway.sound y (Or.inr (by simp))
    · exact underway.sound y (Or.inr (by simp [waiting]))
    · obtain ⟨first, member, path⟩ := underway.sound x (Or.inr (by simp))
      exact ⟨first, member, path.tail leads⟩
  · rcases mem_noted.mp member with old | rfl
    · exact keep y (underway.closed z old y leads)
    · exact mem_grown.mpr (Or.inr (Or.inr leads))

/-- The list grows only where a thing is met for the first time, and by no more than it leads to. -/
theorem Underway.length_grown (underway : Underway step start (x :: todo) seen)
    : (grown step (noted seen x) todo x).length + outgoing step seen
      ≤ todo.length + outgoing step (noted seen x) := by
  have cost : outgoing step (seen ++ [x]) = outgoing step seen + (step x).length := by
    simp [outgoing]
  unfold grown
  split
  · unfold noted
    split <;> omega
  · next unlisted =>
    have fresh : ¬ seen.contains x = true := by
      intro old
      refine unlisted (List.all_eq_true.mpr fun y leads => ?_)
      have there := underway.closed x (List.contains_iff_mem.mp old) y leads
      have there : y ∈ noted seen x ∨ y ∈ todo := by
        rw [List.mem_cons] at there
        rw [mem_noted]
        tauto
      simpa using there
    rw [noted, if_neg fresh, List.length_append]
    omega

variable {pairs : List (α × α)} (once : ∀ x, (step x).Nodup)
  (listed : ∀ x, ∀ y ∈ step x, (x, y) ∈ pairs) {fuel : Nat}
include once listed

/-- With enough fuel the list comes to its end, and everything that can be reached was in it. Each thing
is expanded once, so what is still to come is bounded by the pairs that have not been followed. -/
theorem Underway.exists_closure? (underway : Underway step start todo seen)
    (enough : todo.length + pairs.length ≤ fuel + outgoing step seen)
    : ∃ found, closure? step fuel todo seen = some found ∧ found.Nodup
      ∧ ∀ y, y ∈ found ↔ ∃ x ∈ start, ReflTransGen (fun x y => y ∈ step x) x y := by
  induction fuel generalizing todo seen with
  | zero =>
    have := outgoing_le once listed underway.unique
    obtain rfl : todo = [] := List.length_eq_zero_iff.mp (by omega)
    exact ⟨seen, rfl, underway.unique, underway.mem_seen⟩
  | succ fuel ih =>
    cases todo with
    | nil => exact ⟨seen, rfl, underway.unique, underway.mem_seen⟩
    | cons x rest =>
      have grows := underway.length_grown
      rw [List.length_cons] at enough
      exact ih underway.pass (by omega)

/-- The search goes through the same list. It stops early only where something sought is found, so
nothing that it has passed is sought. -/
theorem Underway.meets?_eq {sought : α → Bool} {found : List α}
    (underway : Underway step start todo seen) (unsought : ∀ y ∈ seen, sought y = false)
    (enough : todo.length + pairs.length ≤ fuel + outgoing step seen)
    (closed : closure? step fuel todo seen = some found)
    (reached : ∀ y, y ∈ found ↔ ∃ x ∈ start, ReflTransGen (fun x y => y ∈ step x) x y)
    : meets? step sought fuel todo seen = some (found.any sought) := by
  induction fuel generalizing todo seen with
  | zero =>
    have := outgoing_le once listed underway.unique
    obtain rfl : todo = [] := List.length_eq_zero_iff.mp (by omega)
    cases closed
    rw [meets?, List.any_eq_false.mpr fun y member => by simp [unsought y member]]
  | succ fuel ih =>
    cases todo with
    | nil =>
      cases closed
      rw [meets?, List.any_eq_false.mpr fun y member => by simp [unsought y member]]
    | cons x rest =>
      have grows := underway.length_grown
      rw [List.length_cons] at enough
      rw [meets?]
      split
      · next there =>
        rw [← List.any_append, List.any_eq_true] at there
        obtain ⟨y, member, isSought⟩ := there
        have isFound := (reached y).mpr (underway.sound y (List.mem_append.mp member))
        rw [List.any_eq_true.mpr ⟨y, isFound, isSought⟩]
      · next absent =>
        rw [← List.any_append, Bool.not_eq_true, List.any_eq_false] at absent
        refine ih underway.pass (fun y member => ?_) (by omega) closed
        rw [← Bool.not_eq_true]
        refine absent y ?_
        rcases mem_noted.mp member with old | rfl <;> simp [*]

/-- From what one thing leads to, the list comes to hold what is reached from it by one or more steps. -/
theorem exists_closure? (enough : 2 * pairs.length ≤ fuel) (x : α)
    : ∃ found, closure? step fuel (step x) [] = some found ∧ found.Nodup
      ∧ (∀ y, y ∈ found ↔ TransGen (fun x y => y ∈ step x) x y)
      ∧ ∀ sought, meets? step sought fuel (step x) [] = some (found.any sought) := by
  have first : (step x).length ≤ pairs.length := by
    simpa [outgoing] using outgoing_le once listed (List.nodup_singleton x)
  have start : Underway step (step x) (step x) [] :=
    ⟨.nil, fun z => by simpa using fun member => ⟨z, member, .refl⟩, fun _ => Or.inr, by simp⟩
  have enough : (step x).length + pairs.length ≤ fuel + outgoing step [] := by
    simp [outgoing]
    omega
  obtain ⟨found, closed, unique, reached⟩ := start.exists_closure? once listed enough
  refine ⟨found, closed, unique, fun y => ?_,
    fun sought => start.meets?_eq once listed (by simp) enough closed reached⟩
  rw [reached, TransGen.head'_iff]

end Growing

end Closures

/-- An ascent with enough fuel holds everything reached by one or more steps. The fuel is enough if
every step brings down a measure. -/
theorem mem_ascent {step : Int → Option Int} {measure : Int → Nat}
    (down : ∀ x y, step x = some y → measure y < measure x) {fuel : Nat} {x : Int}
    (enough : measure x ≤ fuel) (y : Int)
    : y ∈ ascent step fuel x ↔ TransGen (fun x y => step x = some y) x y := by
  induction fuel generalizing x with
  | zero =>
    simp only [ascent, List.not_mem_nil, false_iff]
    intro path
    obtain ⟨next, first, _⟩ := TransGen.head'_iff.mp path
    have := down x next first
    omega
  | succ fuel ih =>
    rw [ascent, TransGen.head'_iff]
    cases first : step x with
    | none => simp
    | some next =>
      have lower := down x next first
      simp only [List.mem_cons, Option.some.injEq, exists_eq_left',
        ih (x := next) (by omega), Relation.reflTransGen_iff_eq_or_transGen]

end ProgramQuery.Relation

import ProgramQuery.Proofs.Program.ControlFlow
import ProgramQuery.Proofs.Relation.LineTable

/-! Which statement holds which and which follows which, by the statement lists of a program, and the
tables of both.
-/

open Relation (TransGen)

namespace ProgramQuery

open Text

section Neighbours

variable {α : Type} {l : List α} {a b c : α}

theorem mem_zip_tail_iff : (a, b) ∈ l.zip l.tail ↔ [a, b] <:+: l := by
  induction l with
  | nil => simp
  | cons x rest ih =>
    rw [List.infix_cons_iff, ← ih, List.cons_prefix_cons]
    cases rest with
    | nil => simp
    | cons y more => simp [List.cons_prefix_cons]

/-- Without repetitions, only one thing comes right after another. -/
theorem eq_of_infix_right (unique : l.Nodup) (first : [a, b] <:+: l) (second : [a, c] <:+: l)
    : b = c := by
  induction l with
  | nil => simp at first
  | cons x rest ih =>
    obtain ⟨fresh, unique⟩ := List.nodup_cons.mp unique
    have later {d : α} (inside : [a, d] <:+: rest) : a ∈ rest := inside.subset (by simp)
    rw [List.infix_cons_iff, List.cons_prefix_cons] at first second
    rcases first with ⟨rfl, front⟩ | inside <;> rcases second with ⟨same, front'⟩ | inside'
    · obtain ⟨t, rfl⟩ := front
      exact ((List.cons_prefix_cons.mp front').1).symm
    · exact absurd (later inside') fresh
    · exact absurd (same ▸ later inside) fresh
    · exact ih unique inside inside'

/-- Without repetitions, only one thing comes right before another. -/
theorem eq_of_infix_left (unique : l.Nodup) (first : [a, c] <:+: l) (second : [b, c] <:+: l)
    : a = b := by
  induction l with
  | nil => simp at first
  | cons x rest ih =>
    obtain ⟨fresh, unique⟩ := List.nodup_cons.mp unique
    have later {d : α} (inside : [d, c] <:+: rest) (front : [c] <+: rest) : False := by
      obtain ⟨t, rfl⟩ := front
      obtain ⟨fresh', _⟩ := List.nodup_cons.mp unique
      rw [List.singleton_append, List.infix_cons_iff, List.cons_prefix_cons] at inside
      rcases inside with ⟨_, front⟩ | inside
      · exact fresh' (front.subset (by simp))
      · exact fresh' (inside.subset (by simp))
    rw [List.infix_cons_iff, List.cons_prefix_cons] at first second
    rcases first with ⟨rfl, front⟩ | inside <;> rcases second with ⟨same, front'⟩ | inside'
    · exact same.symm
    · exact (later inside' front).elim
    · exact (later inside front').elim
    · exact ih unique inside inside'

/-- Going from neighbour to neighbour leads to everything that comes later. -/
theorem transGen_of_sublist (later : [a, b].Sublist l) : TransGen (fun x y => [x, y] <:+: l) a b := by
  induction l generalizing a with
  | nil => cases later
  | cons x rest ih =>
    have lift {c : α} (inside : [c, b].Sublist rest)
        : TransGen (fun y z => [y, z] <:+: x :: rest) c b :=
      (ih inside).lift id fun _ _ step => step.trans (List.suffix_cons x rest).isInfix
    cases later with
    | cons _ inside => exact lift inside
    | cons_cons _ inside =>
      cases rest with
      | nil => cases inside
      | cons y more =>
        have step : [x, y] <:+: x :: y :: more := List.prefix_append [x, y] more |>.isInfix
        rcases List.mem_cons.mp (List.singleton_sublist.mp inside) with rfl | member
        · exact .single step
        · exact .head step (lift ((List.singleton_sublist.mpr member).cons_cons y))

/-- Parts of a list without repetitions share nothing. -/
theorem eq_of_mem_flatMap_nodup {β : Type} {f : α → List β} (unique : (l.flatMap f).Nodup) {x : β}
    (first : a ∈ l) (second : b ∈ l) (inFirst : x ∈ f a) (inSecond : x ∈ f b)
    : a = b := by
  by_contra different
  have apart := (List.nodup_flatMap.mp unique).2
  have : Std.Symm (Function.onFun List.Disjoint f) := ⟨fun _ _ apart _ inB inA => apart inA inB⟩
  exact apart.forall first second different inFirst inSecond

end Neighbours

/-- The second statement stands directly inside the first. -/
def Program.Parent (p : Program) (a b : Nat) : Prop :=
  ∃ s, (a, s) ∈ p.listing ∧ ∃ list ∈ s.bodies a, b ∈ Stmt.lines list.1 list.2

/-- The second statement comes right after the first in some statement list. -/
def Program.Follows (p : Program) (a b : Nat) : Prop :=
  ∃ list ∈ p.lists, [a, b] <:+: Stmt.lines list.1 list.2

/-- No statement list is empty. -/
def Program.Filled (p : Program) : Prop :=
  ∀ list ∈ p.lists, list.2 ≠ []

instance (p : Program) : Decidable p.Filled :=
  decidable_of_iff (∀ list ∈ p.lists, list.2.isEmpty = false) (by simp [Program.Filled])

variable {p : Program} {a b : Nat} {pairs : List (Nat × Nat)} {row column : String}

theorem Stmt.start_le_of_mem_lines {start line : Nat} {statements : List Stmt}
    (member : line ∈ Stmt.lines start statements)
    : start ≤ line := by
  induction statements generalizing start with
  | nil => cases member
  | cons s rest ih =>
    rcases List.mem_cons.mp member with rfl | member
    · exact Nat.le_refl _
    · exact Nat.le_trans (Nat.le_add_right ..) (ih member)

/-- The numbers of a list go up. -/
theorem Stmt.lines_pairwise (start : Nat) (statements : List Stmt)
    : (Stmt.lines start statements).Pairwise (· < ·) := by
  induction statements generalizing start with
  | nil => exact .nil
  | cons s rest ih =>
    refine List.pairwise_cons.mpr ⟨fun line member => ?_, ih _⟩
    have := Stmt.start_le_of_mem_lines member
    have := s.size_pos
    omega

theorem Program.mem_lists_of_bodies {s : Stmt} (listed : (a, s) ∈ p.listing)
    {list : Nat × List Stmt} (member : list ∈ s.bodies a)
    : list ∈ p.lists :=
  List.mem_append_right _ (List.mem_flatMap.mpr ⟨_, listed, member⟩)

theorem Program.mem_lines_of_mem_lists {list : Nat × List Stmt} (member : list ∈ p.lists)
    (inside : a ∈ Stmt.lines list.1 list.2)
    : ∃ s, (a, s) ∈ p.listing := by
  have listed : a ∈ p.listing.map (·.1) :=
    p.lists_perm.mem_iff.mpr (List.mem_flatMap.mpr ⟨list, member, inside⟩)
  simpa using listed

theorem Program.Filled.filled (filled : p.Filled) : ∀ entry ∈ p.listing, entry.2.filled = true := by
  rintro ⟨line, s⟩ listed
  have bodies : ∀ list ∈ s.bodies line, list.2 ≠ [] := fun list member =>
    filled list (Program.mem_lists_of_bodies listed member)
  cases s <;> simp_all [Stmt.filled, Stmt.bodies]

theorem Program.Parent.listed (holds : p.Parent a b)
    : (∃ s, (a, s) ∈ p.listing) ∧ ∃ s, (b, s) ∈ p.listing := by
  obtain ⟨s, listed, list, member, inside⟩ := holds
  exact ⟨⟨s, listed⟩,
    Program.mem_lines_of_mem_lists (Program.mem_lists_of_bodies listed member) inside⟩

theorem Program.Parent.lt (holds : p.Parent a b) : a < b := by
  obtain ⟨s, _, list, member, inside⟩ := holds
  have start := Stmt.start_le_of_mem_lines inside
  cases s with
  | assign target value => cases member
  | call callee => cases member
  | loop condition body =>
    obtain rfl := List.mem_singleton.mp member
    exact start
  | branch condition thenBody elseBody =>
    simp only [Stmt.bodies, List.mem_cons, List.not_mem_nil, or_false] at member
    rcases member with rfl | rfl
    · exact start
    · exact Nat.lt_of_lt_of_le (by omega) start

/-- A statement stands directly inside one statement only. -/
theorem Program.Parent.unique {a' : Nat} (first : p.Parent a b) (second : p.Parent a' b)
    : a = a' := by
  obtain ⟨s, listed, list, member, inside⟩ := first
  obtain ⟨s', listed', list', member', inside'⟩ := second
  have unique := (List.nodup_append.mp (List.flatMap_append ▸ p.nodup_lists)).2.1
  rw [List.flatMap_assoc] at unique
  have same := eq_of_mem_flatMap_nodup unique listed listed'
    (List.mem_flatMap.mpr ⟨list, member, inside⟩) (List.mem_flatMap.mpr ⟨list', member', inside'⟩)
  exact (Prod.mk.inj same).1

theorem Program.Follows.listed (holds : p.Follows a b)
    : (∃ s, (a, s) ∈ p.listing) ∧ ∃ s, (b, s) ∈ p.listing := by
  obtain ⟨list, member, inside⟩ := holds
  exact ⟨Program.mem_lines_of_mem_lists member (inside.subset (by simp)),
    Program.mem_lines_of_mem_lists member (inside.subset (by simp))⟩

theorem Program.Follows.lt (holds : p.Follows a b) : a < b := by
  obtain ⟨list, _, inside⟩ := holds
  have pair := (Stmt.lines_pairwise list.1 list.2).sublist inside.sublist
  simpa using pair

/-- Two lists of a program with a statement in common are the same. -/
theorem Program.lists_eq {list list' : Nat × List Stmt} (member : list ∈ p.lists)
    (member' : list' ∈ p.lists) (inside : a ∈ Stmt.lines list.1 list.2)
    (inside' : a ∈ Stmt.lines list'.1 list'.2)
    : list = list' :=
  eq_of_mem_flatMap_nodup p.nodup_lists member member' inside inside'

theorem Program.Follows.unique_right {b' : Nat} (first : p.Follows a b) (second : p.Follows a b')
    : b = b' := by
  obtain ⟨list, member, inside⟩ := first
  obtain ⟨list', member', inside'⟩ := second
  obtain rfl := Program.lists_eq member member' (inside.subset (by simp : a ∈ [a, b]))
    (inside'.subset (by simp : a ∈ [a, b']))
  exact eq_of_infix_right (Stmt.lines_pairwise list.1 list.2).nodup inside inside'

theorem Program.Follows.unique_left {a' : Nat} (first : p.Follows a b) (second : p.Follows a' b)
    : a = a' := by
  obtain ⟨list, member, inside⟩ := first
  obtain ⟨list', member', inside'⟩ := second
  obtain rfl := Program.lists_eq member member' (inside.subset (by simp : b ∈ [a, b]))
    (inside'.subset (by simp : b ∈ [a', b]))
  exact eq_of_infix_left (Stmt.lines_pairwise list.1 list.2).nodup inside inside'

theorem pair_sublist_of_lt {l : List Nat} (sorted : l.Pairwise (· < ·)) (first : a ∈ l)
    (second : b ∈ l) (lt : a < b)
    : [a, b].Sublist l := by
  obtain ⟨before, after, rfl⟩ := List.append_of_mem first
  rw [List.pairwise_append] at sorted
  have member : b ∈ after := by
    rcases List.mem_append.mp second with early | late
    · have := sorted.2.2 b early a (by simp)
      omega
    · exact (List.mem_cons.mp late).resolve_left (by omega)
  exact ((List.singleton_sublist.mpr member).cons_cons a).trans (List.sublist_append_right ..)

/-- The second statement comes somewhere after the first in one statement list. -/
def Program.Later (p : Program) (a b : Nat) : Prop :=
  ∃ list ∈ p.lists, [a, b].Sublist (Stmt.lines list.1 list.2)

theorem Program.Later.trans {c : Nat} (first : p.Later a b) (second : p.Later b c)
    : p.Later a c := by
  obtain ⟨list, member, inside⟩ := first
  obtain ⟨list', member', inside'⟩ := second
  obtain rfl := Program.lists_eq member member' (inside.subset (by simp : b ∈ [a, b]))
    (inside'.subset (by simp : b ∈ [b, c]))
  have sorted := Stmt.lines_pairwise list.1 list.2
  have lt : a < b := by simpa using sorted.sublist inside
  have lt' : b < c := by simpa using sorted.sublist inside'
  exact ⟨list, member, pair_sublist_of_lt sorted (inside.subset (by simp))
    (inside'.subset (by simp)) (lt.trans lt')⟩

theorem Program.transGen_follows_iff : TransGen p.Follows a b ↔ p.Later a b := by
  constructor
  · intro path
    induction path with
    | single step =>
      obtain ⟨list, member, inside⟩ := step
      exact ⟨list, member, inside.sublist⟩
    | tail _ step ih =>
      obtain ⟨list, member, inside⟩ := step
      exact ih.trans ⟨list, member, inside.sublist⟩
  · intro ⟨list, member, later⟩
    exact (transGen_of_sublist later).lift id fun _ _ step => ⟨list, member, step⟩

theorem Program.mem_neighbours : (a, b) ∈ p.neighbours ↔ p.Follows a b := by
  simp only [Program.neighbours_eq, List.mem_flatMap, Stmt.neighbours, mem_zip_tail_iff,
    Program.Follows]

/-- All numbers of statements are short enough to be read back. -/
def Program.Short (p : Program) : Prop :=
  p.size < 10 ^ mostDigits

instance (p : Program) : Decidable p.Short :=
  Nat.decLt ..

theorem Program.Short.line_lt (short : p.Short) (listed : ∃ s, (a, s) ∈ p.listing)
    : a < 10 ^ mostDigits :=
  Nat.lt_of_le_of_lt (Program.exists_mem_listing_iff.mp listed).2 short

theorem Grid.mem_columnsOf_ofLines : column ∈ (Grid.ofLines pairs).columnsOf row
      ↔ ∃ a b, (a, b) ∈ pairs ∧ row = showInt a ∧ column = showInt b := by
  simp only [Grid.ofLines, Grid.mem_columnsOf_ofPairs, List.mem_map, Prod.exists, Prod.mk.injEq,
    eq_comm]

/-- A table written pair by pair holds the relation of the pairs. -/
theorem Grid.tabulates_ofLines {rel : Nat → Nat → Prop}
    (members : ∀ a b, (a, b) ∈ pairs ↔ rel a b)
    (short : ∀ a b, rel a b → a < 10 ^ mostDigits ∧ b < 10 ^ mostDigits)
    : (Grid.ofLines pairs).Tabulates rel where
  orderly := .ofPairs _
  marks := .ofPairs _
  cells := by
    intro row column
    simp only [Grid.mem_columnsOf_ofLines, members]
  rows := by
    intro row member
    simp only [Grid.ofLines, Grid.mem_rowNames_ofPairs, List.mem_map, Prod.exists, Prod.mk.injEq,
      members] at member
    obtain ⟨_, a, b, holds, rfl, rfl⟩ := member
    exact ⟨a, b, holds, rfl⟩
  short := short

theorem Program.followsGrid_tabulates (short : p.Short) : p.followsGrid.Tabulates p.Follows :=
  Grid.tabulates_ofLines (fun _ _ => Program.mem_neighbours) fun _ _ holds =>
    ⟨short.line_lt holds.listed.1, short.line_lt holds.listed.2⟩

/-- The rows of the table of next statements are the later ones. -/
theorem Program.nextGrid_tabulates (short : p.Short) (filled : p.Filled)
    : p.nextGrid.Tabulates fun after before => p.Step before after := by
  refine Grid.tabulates_ofLines (fun after before => ?_) fun after before holds => ?_
  · rw [Program.step_iff filled.filled]
    simp [and_comm]
  · obtain ⟨start, procedure, entry, step⟩ := holds
    obtain ⟨inside, inside'⟩ := step.spans
    obtain ⟨s, listed⟩ := Stmt.exists_mem_listings_iff.mpr inside
    obtain ⟨s', listed'⟩ := Stmt.exists_mem_listings_iff.mpr inside'
    exact ⟨short.line_lt ⟨s', List.mem_flatMap.mpr ⟨_, entry, listed'⟩⟩,
      short.line_lt ⟨s, List.mem_flatMap.mpr ⟨_, entry, listed⟩⟩⟩

theorem Program.mem_families {children : List Nat}
    : (a, children) ∈ p.families
      ↔ ∃ s, (a, s) ∈ p.listing ∧ s.isContainer = true ∧ s.childLines a = children := by
  simp only [Program.families, List.mem_filterMap, Prod.exists]
  constructor
  · rintro ⟨line, s, listed, found⟩
    cases s <;> cases found <;> exact ⟨_, listed, rfl, rfl⟩
  · rintro ⟨s, listed, container, rfl⟩
    refine ⟨a, s, listed, ?_⟩
    cases s <;> first | rfl | cases container

theorem Program.parent_iff
    : p.Parent a b ↔ ∃ children, (a, children) ∈ p.families ∧ b ∈ children := by
  simp only [Program.mem_families]
  constructor
  · rintro ⟨s, listed, list, member, inside⟩
    have container : s.isContainer = true := by
      cases s <;> first | rfl | cases member
    refine ⟨_, ⟨s, listed, container, rfl⟩, ?_⟩
    rw [Stmt.childLines_eq]
    exact List.mem_flatMap.mpr ⟨list, member, inside⟩
  · rintro ⟨_, ⟨s, listed, _, rfl⟩, member⟩
    rw [Stmt.childLines_eq] at member
    obtain ⟨list, inBodies, inside⟩ := List.mem_flatMap.mp member
    exact ⟨s, listed, list, inBodies, inside⟩

/-- A statement with statement lists has a statement inside unless the lists are empty. -/
theorem Program.Filled.exists_child (filled : p.Filled) {children : List Nat}
    (family : (a, children) ∈ p.families)
    : ∃ b, b ∈ children := by
  obtain ⟨s, listed, container, rfl⟩ := Program.mem_families.mp family
  have full := filled.filled _ listed
  cases s with
  | assign target value => cases container
  | call callee => cases container
  | loop condition body =>
    cases body with
    | nil => cases full
    | cons first rest => exact ⟨a + 1, by simp [Stmt.childLines, Stmt.lines]⟩
  | branch condition thenBody elseBody =>
    cases thenBody with
    | nil => cases full
    | cons first rest => exact ⟨a + 1, by simp [Stmt.childLines, Stmt.lines]⟩

theorem Program.parentGrid_eq (p : Program)
    : p.parentGrid
      = p.families.foldl (Grid.write (fun _ => true) (fun entry => showInt entry.1)
          fun entry => entry.2.map fun (n : Nat) => showInt n) .empty :=
  rfl

theorem Program.mem_columnsOf_parentGrid : column ∈ p.parentGrid.columnsOf row
      ↔ ∃ a b, p.Parent a b ∧ row = showInt a ∧ column = showInt b := by
  rw [Program.parentGrid_eq, Grid.mem_columnsOf_foldl_write]
  simp only [Grid.not_mem_columnsOf_empty, or_false, Prod.exists, List.mem_map,
    Program.parent_iff]
  constructor
  · rintro ⟨a, children, family, rfl, b, member, rfl⟩
    exact ⟨a, b, ⟨children, family, member⟩, rfl, rfl⟩
  · rintro ⟨a, b, ⟨children, family, member⟩, rfl, rfl⟩
    exact ⟨a, children, family, rfl, b, member, rfl⟩

theorem Program.parentGrid_orderly (p : Program) : p.parentGrid.Orderly :=
  p.parentGrid_eq ▸ .foldl_write _ _ _ _ .empty

theorem Program.parentGrid_tabulates (short : p.Short) (filled : p.Filled)
    : p.parentGrid.Tabulates p.Parent where
  orderly := p.parentGrid_orderly
  marks := p.parentGrid_eq ▸ Grid.Marks.foldl_write _ _ _ _ .empty
  cells := fun _ _ => Program.mem_columnsOf_parentGrid
  rows := by
    intro row member
    rw [Program.parentGrid_eq, Grid.mem_rowNames_foldl_write] at member
    simp only [Grid.not_mem_rowNames_empty, or_false, Prod.exists] at member
    obtain ⟨a, children, family, rfl, _⟩ := member
    obtain ⟨b, child⟩ := filled.exists_child family
    exact ⟨a, b, Program.parent_iff.mpr ⟨children, family, child⟩, rfl⟩
  short := fun _ _ holds => ⟨short.line_lt holds.listed.1, short.line_lt holds.listed.2⟩

end ProgramQuery

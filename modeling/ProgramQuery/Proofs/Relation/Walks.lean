import ProgramQuery.Proofs.Program.Nesting
import ProgramQuery.Relation.Follows
import ProgramQuery.Relation.Parent

/-! The tables of Parent and Follows have the shape of the program, whatever its size and whether or not
some of its statement lists are empty. A lookup that takes the first hit takes the only one, and going
from hit to hit comes to an end.
-/

namespace ProgramQuery

open Text ProgramQuery.Relation

/-- What a lookup gives where one key is hit at most: the number of the key, unless its numeral is too
long to be read. -/
def OnlyHit (hits : List String) (found : Option Int) : Prop :=
  (hits = [] ∧ found = none)
  ∨ ∃ n : Nat, hits = [showInt n] ∧ found = if n < 10 ^ mostDigits then some (n : Int) else none

variable {hits : List String}

theorem OnlyHit.of_unique {found : Option Int} (unique : hits.Nodup)
    (numerals : ∀ hit ∈ hits, ∃ n : Nat, hit = showInt n)
    (same : ∀ hit ∈ hits, ∀ hit' ∈ hits, hit = hit')
    (first : found = hits.head?.bind readInt?)
    : OnlyHit hits found := by
  rcases eq_nil_or_singleton unique same with rfl | ⟨hit, rfl⟩
  · exact .inl ⟨rfl, first⟩
  · obtain ⟨n, rfl⟩ := numerals hit (by simp)
    exact .inr ⟨n, rfl, by simpa [readInt?_showInt_eq] using first⟩

theorem OnlyHit.eq_singleton {n : Int} (only : OnlyHit hits (some n))
    : ∃ m : Nat, hits = [showInt m] ∧ n = m := by
  rcases only with ⟨-, found⟩ | ⟨m, hit, found⟩
  · cases found
  · split at found
    · exact ⟨m, hit, Option.some.inj found⟩
    · cases found

/-- The numbers met in turn when a step is taken again and again, until there is no further one. -/
inductive Relation.Walk (step : Int → Option Int) : Int → List Int → Prop
  | stop {line : Int} (none : step line = none) : Walk step line []
  | go {line next : Int} {path : List Int} (found : step line = some next)
    (rest : Walk step next path)
    : Walk step line (next :: path)

/-- A step that brings down a measure is taken to the end. -/
theorem Relation.walk_ascent {step : Int → Option Int} {measure : Int → Nat}
    (down : ∀ x y, step x = some y → measure y < measure x) {fuel : Nat} {line : Int}
    (enough : measure line ≤ fuel)
    : Walk step line (ascent step fuel line) := by
  induction fuel generalizing line with
  | zero =>
    refine .stop (Option.eq_none_iff_forall_ne_some.mpr fun next found => ?_)
    have := down line next found
    omega
  | succ fuel ih =>
    rw [ascent]
    cases found : step line with
    | none => exact .stop found
    | some next =>
      have := down line next found
      exact .go found (ih (by omega))

/-- The cells of a table are the pairs of a relation. Each column is in one row at most, and behind
it. -/
structure Grid.Draws (g : Grid Int) (rel : Nat → Nat → Prop) : Prop where
  cells : ∀ row column,
    (g.cell? row column).isSome ↔ ∃ a b, rel a b ∧ row = showInt a ∧ column = showInt b
  oneRow : ∀ column, (g.rowsWith column).length ≤ 1
  upward : ∀ a b : Nat, (g.cell? (showInt a) (showInt b)).isSome → a < b

namespace Grid

section Drawn

variable {g : Grid Int} {rel : Nat → Nat → Prop} (orderly : g.Orderly)
  (cells : ∀ row column, column ∈ g.columnsOf row
    ↔ ∃ a b, rel a b ∧ row = showInt a ∧ column = showInt b)
  (upward : ∀ a b, rel a b → a < b) (oneRow : ∀ a a' b, rel a b → rel a' b → a = a')
  {column : String} {step : Int → Option Int}
include cells

include orderly oneRow in
theorem eq_of_mem_rowsWith {row row' : String} (member : row ∈ g.rowsWith column)
    (member' : row' ∈ g.rowsWith column)
    : row = row' := by
  obtain ⟨a, b, holds, rfl, rfl⟩ := (cells _ _).mp (orderly.mem_rowsWith.mp member)
  obtain ⟨a', b', holds', rfl, same⟩ := (cells _ _).mp (orderly.mem_rowsWith.mp member')
  obtain rfl := showInt_injective same
  rw [oneRow a a' b holds holds']

include orderly upward oneRow in
theorem draws : g.Draws rel where
  cells := fun row column => by rw [← mem_columnsOf_iff, cells]
  oneRow := by
    intro column
    rcases eq_nil_or_singleton (orderly.nodup_rowsWith column) fun row member row' member' =>
        eq_of_mem_rowsWith orderly cells oneRow member member' with none | ⟨row, one⟩
    · simp [none]
    · simp [one]
  upward := by
    intro a b found
    obtain ⟨a', b', holds, left, right⟩ := (cells _ _).mp (mem_columnsOf_iff.mpr found)
    rw [showInt_injective left, showInt_injective right]
    exact upward a' b' holds

include orderly oneRow in
theorem onlyHit_rowsWith {found : Option Int}
    (first : found = (g.rowsWith column).head?.bind readInt?)
    : OnlyHit (g.rowsWith column) found := by
  refine .of_unique (orderly.nodup_rowsWith column) (fun row member => ?_)
    (fun row member row' member' => eq_of_mem_rowsWith orderly cells oneRow member member') first
  obtain ⟨a, b, _, rfl, _⟩ := (cells _ _).mp (orderly.mem_rowsWith.mp member)
  exact ⟨a, rfl⟩

include orderly in
/-- A step from a column to its row goes back along the relation. -/
theorem rel_of_rowsWith {x y : Int} (only : OnlyHit (g.rowsWith (showInt y)) (some x))
    : ∃ a b : Nat, rel a b ∧ x = a ∧ y = b := by
  obtain ⟨n, hit, rfl⟩ := only.eq_singleton
  have member : showInt n ∈ g.rowsWith (showInt y) := by simp [hit]
  obtain ⟨a, b, holds, left, right⟩ := (cells _ _).mp (orderly.mem_rowsWith.mp member)
  exact ⟨a, b, holds, congrArg _ (showInt_injective left), injective_showInt right⟩

include cells in
theorem rel_of_columnsOf {x y : Int} (only : OnlyHit (g.columnsOf (showInt x)) (some y))
    : ∃ a b : Nat, rel a b ∧ x = a ∧ y = b := by
  obtain ⟨n, hit, rfl⟩ := only.eq_singleton
  have member : showInt n ∈ g.columnsOf (showInt x) := by simp [hit]
  obtain ⟨a, b, holds, left, right⟩ := (cells _ _).mp member
  exact ⟨a, b, holds, injective_showInt left, congrArg _ (showInt_injective right)⟩

/-- How many rows have a number with a property. -/
def countRows (g : Grid Int) (property : Nat → Bool) : Nat :=
  g.rowNames.countP fun row => property (Nat.ofDigitChars 10 row.toList 0)

omit cells in
theorem countRows_le (property : Nat → Bool) : g.countRows property ≤ g.size + 1 := by
  have bound : g.countRows property ≤ g.rowNames.length := List.countP_le_length
  rw [g.length_rowNames] at bound
  omega

theorem countRows_lt_of_rel {p q : Nat → Bool} (wider : ∀ n, p n = true → q n = true) {a b : Nat}
    (holds : rel a b) (isIn : q a = true) (isOut : p a = false)
    : g.countRows p < g.countRows q := by
  have member : showInt a ∈ g.rowNames :=
    mem_rowNames_of_mem_columnsOf ((cells _ _).mpr ⟨a, b, holds, rfl, rfl⟩)
  refine countP_lt_countP (fun row => wider _) member ?_ ?_
  · rw [ofDigitChars_showInt, isIn]
  · rw [ofDigitChars_showInt, isOut]

include upward in
/-- Going back along a relation that goes up, each step leaves fewer rows below. -/
theorem walk_back
    (steps : ∀ x y, step y = some x → ∃ a b : Nat, rel a b ∧ x = a ∧ y = b) (line : Int)
    : Walk step line (ascent step (g.size + 1) line) := by
  let measure (x : Int) : Nat := g.countRows fun n => decide ((n : Int) < x)
  have down (y x : Int) (found : step y = some x) : measure x < measure y := by
    obtain ⟨a, b, holds, rfl, rfl⟩ := steps x y found
    have lt := upward a b holds
    refine countRows_lt_of_rel cells (fun n below => ?_) holds ?_ ?_
    · simp only [decide_eq_true_eq] at below ⊢
      omega
    · simpa using lt
    · simp
  exact walk_ascent down (g.countRows_le _)

include upward in
/-- Going along a relation that goes up, each step leaves fewer rows above. -/
theorem walk_on (steps : ∀ x y, step x = some y → ∃ a b : Nat, rel a b ∧ x = a ∧ y = b) (line : Int)
    : Walk step line (ascent step (g.size + 1) line) := by
  let measure (x : Int) : Nat := g.countRows fun n => decide (x ≤ (n : Int))
  have down (x y : Int) (found : step x = some y) : measure y < measure x := by
    obtain ⟨a, b, holds, rfl, rfl⟩ := steps x y found
    have lt := upward a b holds
    refine countRows_lt_of_rel cells (fun n above => ?_) holds ?_ ?_
    · simp only [decide_eq_true_eq] at above ⊢
      omega
    · simp
    · simpa using lt
  exact walk_ascent down (g.countRows_le _)

end Drawn

end Grid

variable {knowledge : KnowledgeBase}

/-- The rows with a column are read in one go, which makes no difference where there is one at most. -/
theorem Relation.parentOf?_eq {line : Int}
    (one : (knowledge.parent.rowsWith (showInt line)).length ≤ 1)
    : parentOf? knowledge line = (knowledge.parent.rowsWith (showInt line)).head?.bind readInt? := by
  rw [parentOf?, Grid.rowsAt, Grid.rowNumbersWith]
  cases hits : knowledge.parent.rowsWith (showInt line) with
  | nil => rfl
  | cons row rest =>
    cases rest with
    | nil => cases read : readInt? row <;> simp [read]
    | cons row' rest => simp [hits] at one

/-- The tables of Parent and Follows draw these relations, and following them comes to an end. -/
structure KnowledgeBase.Shapes (knowledge : KnowledgeBase) (p : Program) : Prop where
  parent : knowledge.parent.Draws p.Parent
  follows : knowledge.follows.Draws p.Follows
  oneColumn : ∀ row ∈ knowledge.follows.rowNames,
    ∃ column, knowledge.follows.columnsOf row = [column]
  around : ∀ line,
    OnlyHit (knowledge.parent.rowsWith (showInt line)) (parentOf? knowledge line)
  before : ∀ line,
    OnlyHit (knowledge.follows.rowsWith (showInt line)) (knowledge.follows.firstRow? line)
  after : ∀ line,
    OnlyHit (knowledge.follows.columnsOf (showInt line)) (knowledge.follows.firstColumn? line)
  walkUp : ∀ line, Walk (parentOf? knowledge) line (ParentStar.allAround knowledge line)
  walkBack : ∀ line, Walk knowledge.follows.firstRow? line (FollowsStar.allBefore knowledge line)
  walkOn : ∀ line, Walk knowledge.follows.firstColumn? line (FollowsStar.allAfter knowledge line)

namespace Program

variable {p : Program} {row : String}

theorem mem_columnsOf_followsGrid {column : String}
    : column ∈ p.followsGrid.columnsOf row
      ↔ ∃ a b, p.Follows a b ∧ row = showInt a ∧ column = showInt b := by
  simp only [followsGrid, Grid.mem_columnsOf_ofLines, mem_neighbours]

theorem followsGrid_orderly (p : Program) : p.followsGrid.Orderly :=
  .ofPairs _

theorem eq_of_mem_columnsOf_followsGrid {column column' : String}
    (member : column ∈ p.followsGrid.columnsOf row)
    (member' : column' ∈ p.followsGrid.columnsOf row)
    : column = column' := by
  obtain ⟨a, b, holds, rfl, rfl⟩ := mem_columnsOf_followsGrid.mp member
  obtain ⟨a', b', holds', same, rfl⟩ := mem_columnsOf_followsGrid.mp member'
  obtain rfl := showInt_injective same
  rw [holds.unique_right holds']

theorem exists_columnsOf_followsGrid (member : row ∈ p.followsGrid.rowNames)
    : ∃ column, p.followsGrid.columnsOf row = [column] := by
  obtain ⟨column, pair⟩ := (Grid.mem_rowNames_ofPairs _).mp member
  have found := (Grid.mem_columnsOf_ofPairs _).mpr pair
  rcases eq_nil_or_singleton (p.followsGrid_orderly.columns row) fun _ first _ second =>
      eq_of_mem_columnsOf_followsGrid first second with none | one
  · rw [Program.followsGrid, Grid.ofLines] at none
    simp [none] at found
  · exact one

end Program

theorem KnowledgeBase.Describes.shapes {p : Program}
    (describes : knowledge.Describes p)
    : knowledge.Shapes p := by
  have parentOrderly : knowledge.parent.Orderly := describes.parent ▸ p.parentGrid_orderly
  have parentCells : ∀ row column, column ∈ knowledge.parent.columnsOf row
      ↔ ∃ a b, p.Parent a b ∧ row = showInt a ∧ column = showInt b :=
    fun _ _ => describes.parent ▸ Program.mem_columnsOf_parentGrid
  have followsOrderly : knowledge.follows.Orderly := describes.follows ▸ p.followsGrid_orderly
  have followsCells : ∀ row column, column ∈ knowledge.follows.columnsOf row
      ↔ ∃ a b, p.Follows a b ∧ row = showInt a ∧ column = showInt b :=
    fun _ _ => describes.follows ▸ Program.mem_columnsOf_followsGrid
  have parentAbove : ∀ a a' b, p.Parent a b → p.Parent a' b → a = a' :=
    fun _ _ _ => Program.Parent.unique
  have followsBefore : ∀ a a' b, p.Follows a b → p.Follows a' b → a = a' :=
    fun _ _ _ => Program.Follows.unique_left
  have parent : knowledge.parent.Draws p.Parent :=
    Grid.draws parentOrderly parentCells (fun _ _ => Program.Parent.lt) parentAbove
  have around (line : Int)
      : OnlyHit (knowledge.parent.rowsWith (showInt line)) (parentOf? knowledge line) :=
    Grid.onlyHit_rowsWith parentOrderly parentCells parentAbove
      (Relation.parentOf?_eq (parent.oneRow _))
  have before (line : Int)
      : OnlyHit (knowledge.follows.rowsWith (showInt line)) (knowledge.follows.firstRow? line) :=
    Grid.onlyHit_rowsWith followsOrderly followsCells followsBefore rfl
  have after (line : Int)
      : OnlyHit (knowledge.follows.columnsOf (showInt line))
          (knowledge.follows.firstColumn? line) := by
    refine .of_unique (followsOrderly.columns _) (fun column member => ?_)
      (fun column member column' member' => ?_) rfl
    · obtain ⟨_, b, _, _, rfl⟩ := (followsCells _ _).mp member
      exact ⟨b, rfl⟩
    · rw [describes.follows] at member member'
      exact Program.eq_of_mem_columnsOf_followsGrid member member'
  refine
    { parent, around, before, after
      follows :=
        Grid.draws followsOrderly followsCells (fun _ _ => Program.Follows.lt) followsBefore
      oneColumn := ?_
      walkUp := ?_
      walkBack := ?_
      walkOn := ?_ }
  · rw [describes.follows]
    exact fun row => Program.exists_columnsOf_followsGrid
  · refine Grid.walk_back parentCells (fun _ _ => Program.Parent.lt) fun x y found => ?_
    exact Grid.rel_of_rowsWith parentOrderly parentCells (found ▸ around y)
  · refine Grid.walk_back followsCells (fun _ _ => Program.Follows.lt) fun x y found => ?_
    exact Grid.rel_of_rowsWith followsOrderly followsCells (found ▸ before y)
  · refine Grid.walk_on followsCells (fun _ _ => Program.Follows.lt) fun x y found => ?_
    exact Grid.rel_of_columnsOf followsCells (found ▸ after x)

end ProgramQuery

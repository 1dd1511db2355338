import ProgramQuery.Proofs.Grid
import ProgramQuery.Proofs.Lists
import ProgramQuery.Proofs.Relation.Reach
import ProgramQuery.Proofs.Text.Numerals

/-! What is read off a table of a relation between statement numbers. -/

open Relation (ReflTransGen TransGen)

namespace ProgramQuery

open Text ProgramQuery.Relation

/-- A list of numbers holds the statement numbers with a property and nothing else. -/
def Enumerates (xs : List Int) (property : Nat → Prop) : Prop :=
  ∀ n : Int, n ∈ xs ↔ ∃ line : Nat, property line ∧ (line : Int) = n

variable {xs : List Int} {property : Nat → Prop}

theorem Enumerates.mem_iff (all : Enumerates xs property)
    {line : Nat}
    : (line : Int) ∈ xs ↔ property line := by
  rw [all]
  constructor
  · rintro ⟨other, holds, same⟩
    rwa [← Int.ofNat_inj.mp same]
  · exact fun holds => ⟨line, holds, rfl⟩

/-- A number as it is written, not too long to be read. -/
def Numeral (text : String) (n : Int) : Prop :=
  text = showInt n ∧ readInt? text = some n

variable {texts : List String}

/-- A list of numerals is read back number by number, in its own order. -/
theorem exists_mapM_readInt? (numerals : ∀ text ∈ texts, ∃ n, Numeral text n)
    : ∃ ns, texts.mapM readInt? = some ns ∧ (∀ n, n ∈ ns ↔ showInt n ∈ texts)
      ∧ (texts.Nodup → ns.Nodup) := by
  obtain ⟨ns, read, rfl⟩ : ∃ ns, texts.mapM readInt? = some ns ∧ texts = ns.map showInt := by
    induction texts with
    | nil => exact ⟨[], rfl, rfl⟩
    | cons text rest ih =>
      obtain ⟨n, rfl, first⟩ := numerals text (by simp)
      obtain ⟨ns, read, same⟩ := ih fun text member => numerals text (by simp [member])
      exact ⟨n :: ns, by rw [List.mapM_cons, first, read]; rfl, by rw [same]; rfl⟩
  exact ⟨ns, read, fun n => (List.mem_map_of_injective injective_showInt).symm, List.Nodup.of_map _⟩

theorem exists_mapM_numerals
    (numerals : ∀ text, text ∈ texts ↔ ∃ line : Nat, property line ∧ text = showInt line)
    (short : ∀ line, property line → line < 10 ^ mostDigits)
    : ∃ ns, texts.mapM readInt? = some ns ∧ Enumerates ns property ∧ (texts.Nodup → ns.Nodup) := by
  have read (text : String) (member : text ∈ texts) : ∃ n, Numeral text n := by
    obtain ⟨line, holds, rfl⟩ := (numerals text).mp member
    exact ⟨line, rfl, readInt?_showInt (short line holds)⟩
  obtain ⟨ns, read, members, unique⟩ := exists_mapM_readInt? read
  refine ⟨ns, read, fun n => ?_, unique⟩
  rw [members, numerals]
  exact exists_congr fun line => and_congr_right fun _ => injective_showInt.eq_iff.trans eq_comm

/-- Names of rows are numbers if they are numerals. -/
theorem mapM_number {ns : List Int} (read : texts.mapM readInt? = some ns)
    : texts.mapM number = .ok ns := by
  induction texts generalizing ns with
  | nil =>
    cases read
    rfl
  | cons text rest ih =>
    rw [List.mapM_cons] at read ⊢
    simp only [Option.bind_eq_bind, Option.bind_eq_some_iff, Option.pure_def,
      Option.some.injEq] at read
    obtain ⟨n, first, ns', more, rfl⟩ := read
    simp only [number, first, ih more]
    rfl

theorem head?_of_mapM {ns : List Int} (read : texts.mapM readInt? = some ns)
    : texts.head?.bind readInt? = ns.head? := by
  cases mapM_eq_some_iff.mp read with
  | nil => rfl
  | cons first _ => exact first

/-- Where a list holds at most one number, the first of it is that number. -/
theorem head?_eq_some_of_single (single : ∀ a ∈ xs, ∀ b ∈ xs, a = b) {n : Int}
    : xs.head? = some n ↔ n ∈ xs := by
  refine ⟨List.mem_of_mem_head?, fun member => ?_⟩
  cases xs with
  | nil => cases member
  | cons first rest => rw [List.head?_cons, single first (by simp) n member]

section Numbers

variable {rel : Nat → Nat → Prop} {a : Nat} {x y : Int}

def onNumbers (rel : Nat → Nat → Prop) (x y : Int) : Prop :=
  ∃ a b : Nat, rel a b ∧ (a : Int) = x ∧ (b : Int) = y

theorem onNumbers_natCast : onNumbers rel a y ↔ ∃ b : Nat, rel a b ∧ (b : Int) = y := by
  constructor
  · rintro ⟨a', b, holds, same, rfl⟩
    exact ⟨b, Int.ofNat_inj.mp same ▸ holds, rfl⟩
  · rintro ⟨b, holds, rfl⟩
    exact ⟨a, b, holds, rfl, rfl⟩

/-- A path between numbers along a relation between statement numbers. -/
theorem transGen_natCast {r : Int → Int → Prop} (steps : ∀ x y, r x y ↔ onNumbers rel x y)
    : TransGen r a y ↔ ∃ b : Nat, TransGen rel a b ∧ (b : Int) = y := by
  constructor
  · intro path
    induction path with
    | single first =>
      obtain ⟨a', b, holds, same, rfl⟩ := (steps _ _).mp first
      exact ⟨b, .single (Int.ofNat_inj.mp same ▸ holds), rfl⟩
    | tail _ last ih =>
      obtain ⟨b, before, rfl⟩ := ih
      obtain ⟨b', c, holds, same, rfl⟩ := (steps _ _).mp last
      exact ⟨c, before.tail (Int.ofNat_inj.mp same ▸ holds), rfl⟩
  · rintro ⟨b, path, rfl⟩
    induction path with
    | single holds => exact .single ((steps _ _).mpr ⟨a, _, holds, rfl, rfl⟩)
    | tail _ holds ih => exact ih.tail ((steps _ _).mpr ⟨_, _, holds, rfl, rfl⟩)

/-- A step from a statement gives the statements that are related to it. -/
theorem Enumerates.of_step {f : Int → Option Int} (steps : ∀ x y, f x = some y ↔ onNumbers rel x y)
    (a : Nat)
    : Enumerates (f a).toList (rel a) := by
  intro n
  rw [Option.mem_toList, steps, onNumbers_natCast]

end Numbers

namespace Grid

section Pairs

variable {α : Type} {g : Grid α} {row column : String}

def pairs (g : Grid α) : List (String × String) :=
  g.rows.flatMap fun entry => (Keyed.keys entry.2).map (entry.1, ·)

theorem length_pairs (g : Grid α) : g.pairs.length = g.cells := by
  simp [pairs, cells, allColumns, Keyed.values, List.length_flatMap, List.map_map,
    Function.comp_def]

theorem Orderly.mem_pairs (orderly : g.Orderly)
    : (row, column) ∈ g.pairs ↔ column ∈ g.columnsOf row := by
  rw [← orderly.mem_rowsWith]
  simp [pairs, rowsWith, Keyed.keys, Keyed.has, ← Keyed.mem_keys_iff]

end Pairs

section Canonical

variable {α : Type} {g : Grid α} {x y : Int}

/-- A table in which each row and each column is given once, under the numeral of a number. -/
structure Canonical (g : Grid α) : Prop where
  orderly : g.Orderly
  numerals : ∀ row column, column ∈ g.columnsOf row → (∃ a, Numeral row a) ∧ ∃ b, Numeral column b

/-- The table has a cell in the row of one number and the column of another. -/
def Relates (g : Grid α) (x y : Int) : Prop :=
  showInt y ∈ g.columnsOf (showInt x)

variable (canonical : g.Canonical)
include canonical

theorem Canonical.columnsAt_spec (x : Int)
    : (∀ y, y ∈ g.columnsAt x ↔ g.Relates x y) ∧ (g.columnsAt x).Nodup
      ∧ g.firstColumn? x = (g.columnsAt x).head? := by
  obtain ⟨ns, read, members, unique⟩ := exists_mapM_readInt? fun column member =>
    (canonical.numerals (showInt x) column member).2
  have same : g.columnsAt x = ns := by simp [columnsAt, columnNumbersOf, read]
  rw [same]
  exact ⟨members, unique (canonical.orderly.columns (showInt x)), head?_of_mapM read⟩

theorem Canonical.rowsAt_spec (y : Int)
    : (∀ x, x ∈ g.rowsAt y ↔ g.Relates x y) ∧ (g.rowsAt y).Nodup
      ∧ g.firstRow? y = (g.rowsAt y).head? := by
  obtain ⟨ns, read, members, unique⟩ := exists_mapM_readInt? fun row member =>
    (canonical.numerals row (showInt y) (canonical.orderly.mem_rowsWith.mp member)).1
  have same : g.rowsAt y = ns := by simp [rowsAt, rowNumbersWith, read]
  rw [same]
  exact ⟨fun x => (members x).trans canonical.orderly.mem_rowsWith,
    unique (canonical.orderly.nodup_rowsWith (showInt y)), head?_of_mapM read⟩

/-- The cells as pairs of numbers. -/
theorem Canonical.exists_numberPairs
    : ∃ numbers : List (Int × Int), numbers.length = g.cells
      ∧ ∀ x y, g.Relates x y → (x, y) ∈ numbers := by
  let value (text : String) : Int := (readInt? text).getD 0
  refine ⟨g.pairs.map fun pair => (value pair.1, value pair.2), by simp [length_pairs], ?_⟩
  intro x y cell
  refine List.mem_map.mpr ⟨_, canonical.orderly.mem_pairs.mpr cell, ?_⟩
  obtain ⟨⟨a, same, read⟩, b, same', read'⟩ := canonical.numerals _ _ cell
  rw [← injective_showInt same] at read
  rw [← injective_showInt same'] at read'
  simp [value, read, read']

/-- To the right of a line, the list comes to hold what is reached along the rows. -/
theorem Canonical.exists_columnClosure? (x : Int)
    : ∃ found, g.columnClosure? x = some found ∧ found.Nodup
      ∧ (∀ y, y ∈ found ↔ TransGen g.Relates x y)
      ∧ ∀ sought, meets? g.columnsAt sought g.turns (g.columnsAt x) [] = some (found.any sought) := by
  obtain ⟨numbers, size, listed⟩ := canonical.exists_numberPairs
  have steps : (fun x y => y ∈ g.columnsAt x) = g.Relates := by
    funext x y
    exact propext ((canonical.columnsAt_spec x).1 y)
  rw [← steps]
  refine exists_closure? (fun x => (canonical.columnsAt_spec x).2.1)
    (fun x y leads => listed x y (((canonical.columnsAt_spec x).1 y).mp leads)) ?_ x
  rw [turns]
  omega

/-- To the left of a line, the list comes to hold what leads there along the rows. -/
theorem Canonical.exists_rowClosure? (y : Int)
    : ∃ found, g.rowClosure? y = some found ∧ found.Nodup
      ∧ (∀ x, x ∈ found ↔ TransGen g.Relates x y)
      ∧ ∀ sought, meets? g.rowsAt sought g.turns (g.rowsAt y) [] = some (found.any sought) := by
  obtain ⟨numbers, size, listed⟩ := canonical.exists_numberPairs
  have steps : (fun y x => x ∈ g.rowsAt y) = Function.swap g.Relates := by
    funext y x
    exact propext ((canonical.rowsAt_spec y).1 x)
  simp only [← Relation.transGen_swap (r := g.Relates), ← steps]
  have swapped (y x : Int) (leads : x ∈ g.rowsAt y) : (y, x) ∈ numbers.map Prod.swap :=
    List.mem_map.mpr ⟨(x, y), listed x y (((canonical.rowsAt_spec y).1 x).mp leads), rfl⟩
  refine exists_closure? (fun y => (canonical.rowsAt_spec y).2.1) swapped ?_ y
  rw [turns, List.length_map]
  omega

end Canonical

/-- The cells of a table are the pairs of a relation between statement numbers, and every row has a
cell. -/
structure Tabulates (g : Grid Int) (rel : Nat → Nat → Prop) : Prop where
  orderly : g.Orderly
  marks : g.Marks
  cells : ∀ row column,
    column ∈ g.columnsOf row ↔ ∃ a b, rel a b ∧ row = showInt a ∧ column = showInt b
  rows : ∀ row ∈ g.rowNames, ∃ a b, rel a b ∧ row = showInt a
  short : ∀ a b, rel a b → a < 10 ^ mostDigits ∧ b < 10 ^ mostDigits

namespace Tabulates

variable {g : Grid Int} {rel : Nat → Nat → Prop} (table : g.Tabulates rel) {column : String}
  {step : Int → Option Int}
include table

theorem markedAt_iff {a b : Nat} : g.markedAt a b = true ↔ rel a b := by
  rw [markedAt, table.marks.marked_iff, table.cells]
  simp

theorem mem_columnsOf {a : Nat}
    : column ∈ g.columnsOf (showInt a) ↔ ∃ b, rel a b ∧ column = showInt b := by
  rw [table.cells]
  constructor
  · rintro ⟨a', b, holds, same, rfl⟩
    obtain rfl : a = a' := by simpa using same
    exact ⟨b, holds, rfl⟩
  · rintro ⟨b, holds, rfl⟩
    exact ⟨a, b, holds, rfl, rfl⟩

theorem mem_rowNames {row : String}
    : row ∈ g.rowNames ↔ ∃ a, (∃ b, rel a b) ∧ row = showInt a := by
  constructor
  · intro member
    obtain ⟨a, b, holds, rfl⟩ := table.rows row member
    exact ⟨a, ⟨b, holds⟩, rfl⟩
  · rintro ⟨a, ⟨b, holds⟩, rfl⟩
    exact mem_rowNames_of_mem_columnsOf (table.mem_columnsOf.mpr ⟨b, holds, rfl⟩)

theorem mem_allColumns : column ∈ g.allColumns ↔ ∃ b, (∃ a, rel a b) ∧ column = showInt b := by
  rw [table.orderly.mem_allColumns]
  constructor
  · rintro ⟨row, member⟩
    obtain ⟨a, b, holds, rfl, rfl⟩ := (table.cells row column).mp member
    exact ⟨b, ⟨a, holds⟩, rfl⟩
  · rintro ⟨b, ⟨a, holds⟩, rfl⟩
    exact ⟨showInt a, table.mem_columnsOf.mpr ⟨b, holds, rfl⟩⟩

theorem canonical : g.Canonical := by
  refine ⟨table.orderly, fun row column member => ?_⟩
  obtain ⟨a, b, holds, rfl, rfl⟩ := (table.cells row column).mp member
  obtain ⟨first, second⟩ := table.short a b holds
  exact ⟨⟨a, rfl, readInt?_showInt first⟩, b, rfl, readInt?_showInt second⟩

theorem relates_iff (x y : Int) : g.Relates x y ↔ onNumbers rel x y := by
  rw [Relates, table.cells]
  refine exists₂_congr fun a b => and_congr_right fun _ => and_congr ?_ ?_
  · exact injective_showInt.eq_iff.trans eq_comm
  · exact injective_showInt.eq_iff.trans eq_comm

theorem swap_relates_iff (y x : Int) : g.Relates x y ↔ onNumbers (fun b a => rel a b) y x := by
  rw [table.relates_iff, onNumbers, onNumbers, exists_comm]
  exact exists₂_congr fun b a => and_congr_right fun _ => and_comm

theorem columnsAt_spec (a : Nat) : Enumerates (g.columnsAt a) (rel a) := by
  intro n
  rw [(table.canonical.columnsAt_spec a).1, table.relates_iff, onNumbers_natCast]

theorem rowsAt_spec (b : Nat) : Enumerates (g.rowsAt b) (rel · b) := by
  intro n
  rw [(table.canonical.rowsAt_spec b).1, table.swap_relates_iff, onNumbers_natCast]

theorem rowNumbers_spec : ∃ ns, g.rowNumbers = .ok ns ∧ Enumerates ns fun a => ∃ b, rel a b := by
  obtain ⟨ns, read, all, _⟩ := exists_mapM_numerals (fun _ => table.mem_rowNames)
    fun a ⟨b, holds⟩ => (table.short a b holds).1
  exact ⟨ns, mapM_number read, all⟩

theorem columnNumbers_spec
    : ∃ ns, g.columnNumbers = .ok ns ∧ Enumerates ns fun b => ∃ a, rel a b := by
  obtain ⟨ns, read, all, _⟩ := exists_mapM_numerals
    (fun _ => List.mem_eraseDups.trans table.mem_allColumns)
    fun b ⟨a, holds⟩ => (table.short a b holds).2
  exact ⟨ns, mapM_number read, all⟩

theorem columnClosure_spec (a : Nat) : Enumerates (g.columnClosure a) (TransGen rel a) := by
  obtain ⟨found, closed, -, reached, -⟩ := table.canonical.exists_columnClosure? a
  intro n
  rw [columnClosure, closed, Option.getD_some, reached, transGen_natCast table.relates_iff]

theorem rowClosure_spec (b : Nat) : Enumerates (g.rowClosure b) fun a => TransGen rel a b := by
  obtain ⟨found, closed, -, reached, -⟩ := table.canonical.exists_rowClosure? b
  intro n
  rw [rowClosure, closed, Option.getD_some, reached, ← Relation.transGen_swap,
    transGen_natCast table.swap_relates_iff]
  simp only [Relation.transGen_swap (r := rel)]

theorem rowsAt_head?_iff (single : ∀ a a' b, rel a b → rel a' b → a = a') (y x : Int)
    : (g.rowsAt y).head? = some x ↔ onNumbers (fun b a => rel a b) y x := by
  have members := (table.canonical.rowsAt_spec y).1
  rw [head?_eq_some_of_single, members, table.swap_relates_iff]
  intro x member x' member'
  obtain ⟨a, b, holds, rfl, rfl⟩ := (table.relates_iff x y).mp ((members x).mp member)
  obtain ⟨a', b', holds', rfl, same⟩ := (table.relates_iff x' b).mp ((members x').mp member')
  rw [single a a' b holds (Int.ofNat_inj.mp same ▸ holds')]

/-- A relation that goes from one row to at most one column. -/
theorem firstColumn?_iff (single : ∀ a b b', rel a b → rel a b' → b = b') (x y : Int)
    : g.firstColumn? x = some y ↔ onNumbers rel x y := by
  obtain ⟨members, -, first⟩ := table.canonical.columnsAt_spec x
  rw [first, head?_eq_some_of_single, members, table.relates_iff]
  intro y member y' member'
  obtain ⟨a, b, holds, rfl, rfl⟩ := (table.relates_iff x y).mp ((members y).mp member)
  obtain ⟨a', b', holds', same, rfl⟩ := (table.relates_iff a y').mp ((members y').mp member')
  rw [single a b b' holds (Int.ofNat_inj.mp same ▸ holds')]

theorem firstRow?_iff (single : ∀ a a' b, rel a b → rel a' b → a = a') (y x : Int)
    : g.firstRow? y = some x ↔ onNumbers (fun b a => rel a b) y x := by
  rw [(table.canonical.rowsAt_spec y).2.2, table.rowsAt_head?_iff single]

/-- How many rows have a number with a property. -/
theorem countRows_lt {p q : Int → Bool} (wider : ∀ n, p n = true → q n = true) {a b : Nat}
    (holds : rel a b) (isIn : q a = true) (isOut : p a = false)
    : g.rowNames.countP (fun row => p ((readInt? row).getD 0))
      < g.rowNames.countP (fun row => q ((readInt? row).getD 0)) := by
  have member : showInt a ∈ g.rowNames := table.mem_rowNames.mpr ⟨a, ⟨b, holds⟩, rfl⟩
  have value : (readInt? (showInt a)).getD 0 = a := by
    rw [readInt?_showInt (table.short a b holds).1, Option.getD_some]
  exact countP_lt_countP (fun row => wider ((readInt? row).getD 0)) member (by rw [value, isIn])
    (by rw [value, isOut])

/-- Steps that leave a row behind each time come to an end. -/
theorem ascent_spec {rel' : Nat → Nat → Prop} {t : Int → Int → Bool}
    (steps : ∀ x y, step x = some y ↔ onNumbers rel' x y)
    (leaves : ∀ a b : Nat, rel' a b → (∀ n, t b n = true → t a n = true)
      ∧ ∃ c d, rel c d ∧ t a c = true ∧ t b c = false)
    (a : Nat)
    : Enumerates (ascent step (g.size + 1) a) (TransGen rel' a) := by
  let measure (x : Int) : Nat := g.rowNames.countP fun row => t x ((readInt? row).getD 0)
  have down (x y : Int) (isStep : step x = some y) : measure y < measure x := by
    obtain ⟨a, b, holds, rfl, rfl⟩ := (steps x y).mp isStep
    obtain ⟨wider, c, d, row, isIn, isOut⟩ := leaves a b holds
    exact table.countRows_lt wider row isIn isOut
  have enough : measure a ≤ g.size + 1 := by
    have bound : measure a ≤ g.rowNames.length := List.countP_le_length
    rw [g.length_rowNames] at bound
    omega
  intro n
  rw [mem_ascent down enough, transGen_natCast steps]

/-- Going along a relation that goes up through the numbers comes to an end. -/
theorem ascent_columns_spec (single : ∀ a b b', rel a b → rel a b' → b = b')
    (upward : ∀ a b, rel a b → a < b) (a : Nat)
    : Enumerates (ascent g.firstColumn? (g.size + 1) a) (TransGen rel a) := by
  refine table.ascent_spec (t := fun x n => decide (x ≤ n)) (table.firstColumn?_iff single)
    (fun a b holds => ⟨fun n above => ?_, a, b, holds, by simp, ?_⟩) a
  · have := upward a b holds
    simp only [decide_eq_true_eq] at above ⊢
    omega
  · simpa using upward a b holds

/-- Going back along a relation that goes up through the numbers comes to an end. -/
theorem ascent_rows_spec (steps : ∀ y x, step y = some x ↔ onNumbers (fun b a => rel a b) y x)
    (upward : ∀ a b, rel a b → a < b) (b : Nat)
    : Enumerates (ascent step (g.size + 1) b) fun a => TransGen rel a b := by
  have all : Enumerates (ascent step (g.size + 1) b) (TransGen (fun b a => rel a b) b) := by
    refine table.ascent_spec (t := fun x n => decide (n < x)) steps
      (fun b a holds => ⟨fun n below => ?_, a, b, holds, ?_, by simp⟩) b
    · have := upward a b holds
      simp only [decide_eq_true_eq] at below ⊢
      omega
    · simpa using upward a b holds
  exact fun n => (all n).trans (by simp only [Relation.transGen_swap])

end Tabulates

end Grid

end ProgramQuery

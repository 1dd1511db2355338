import Mathlib
import ProgramQuery.Grid

/-! What tables hold after they are written. A table is looked at through its cells; rows and columns
are listed once each as long as the table was built by writing cells.
-/

namespace ProgramQuery.Keyed

variable {α : Type} {table : Keyed α} {key other : String} {value : α}

/-- Writing changes the value under one key and nothing else. -/
theorem get?_put (table : Keyed α) (key other : String) (value : α)
    : (table.put key value).get? other = if key = other then some value else table.get? other := by
  by_cases same : key = other
  · subst same
    simp [get?_put_self]
  · simp [get?_put_of_ne table value same, same]

theorem mem_keys_iff : key ∈ keys table ↔ (table.get? key).isSome := by
  induction table with
  | nil => simp [keys]
  | cons entry rest ih =>
    obtain ⟨k, old⟩ := entry
    by_cases same : k = key
    · simp [keys, get?, same]
    · have other : ¬ key = k := fun h => same h.symm
      simpa [keys, get?, same, other] using ih

theorem has_iff : table.has key = true ↔ key ∈ keys table := by
  simp [has, mem_keys_iff]

theorem mem_keys_put : other ∈ keys (table.put key value) ↔ other = key ∨ other ∈ keys table := by
  simp only [mem_keys_iff, get?_put]
  by_cases same : key = other
  · simp [same]
  · have : ¬ other = key := fun h => same h.symm
    simp [same, this]

/-- A key keeps its place, and a new one goes to the end. -/
theorem keys_put (table : Keyed α) (key : String) (value : α)
    : keys (table.put key value)
      = if key ∈ keys table then keys table else keys table ++ [key] := by
  induction table with
  | nil => simp [put, keys]
  | cons entry rest ih =>
    obtain ⟨k, old⟩ := entry
    by_cases same : k = key
    · simp [put, keys, same]
    · have other : ¬ key = k := fun h => same h.symm
      simp only [keys] at ih
      simp only [put, beq_iff_eq, same, if_false, keys, List.map_cons, ih, List.mem_cons, other,
        false_or]
      by_cases member : key ∈ rest.map (·.1) <;> simp [member]

theorem nodup_keys_put (unique : (keys table).Nodup) : (keys (table.put key value)).Nodup := by
  rw [keys_put]
  split
  · exact unique
  · next fresh =>
    rw [List.nodup_append]
    refine ⟨unique, by simp, ?_⟩
    intro k member k' single same
    rw [List.mem_singleton] at single
    exact fresh (single ▸ same ▸ member)

/-- With unique keys, the entries are what a look-up finds. -/
theorem mem_iff_get? (unique : (keys table).Nodup)
    : (key, value) ∈ table ↔ table.get? key = some value := by
  induction table with
  | nil => simp
  | cons entry rest ih =>
    obtain ⟨k, old⟩ := entry
    obtain ⟨fresh, unique⟩ := List.nodup_cons.mp unique
    by_cases same : k = key
    · subst same
      have absent : (k, value) ∉ rest := fun member =>
        fresh (List.mem_map.mpr ⟨_, member, rfl⟩)
      simp [get?, absent, eq_comm]
    · have other : ¬ key = k := fun h => same h.symm
      simp [get?, same, other, ih unique]

theorem mem_put {entry : String × α} (member : entry ∈ table.put key value)
    : entry = (key, value) ∨ entry ∈ table := by
  induction table with
  | nil => simpa [put] using member
  | cons first rest ih =>
    obtain ⟨k, old⟩ := first
    by_cases found : k = key
    · subst found
      rw [put, if_pos (by simp), List.mem_cons] at member
      exact member.imp_right (List.mem_cons_of_mem _)
    · rw [put, if_neg (by simpa using found), List.mem_cons] at member
      rcases member with rfl | later
      · simp
      · exact (ih later).imp_right (List.mem_cons_of_mem _)

theorem mem_of_get? (found : table.get? key = some value) : (key, value) ∈ table := by
  induction table with
  | nil => cases found
  | cons first rest ih =>
    obtain ⟨k, old⟩ := first
    rw [get?] at found
    split at found
    next same =>
      cases found
      simp [beq_iff_eq.mp same]
    next => exact List.mem_cons_of_mem _ (ih found)

end ProgramQuery.Keyed

namespace ProgramQuery.Grid

variable {α : Type} {g : Grid α} {row row' column column' : String} {value : α}

theorem row?_put (g : Grid α) (row column : String) (value : α) (row' : String)
    : (g.put row column value).row? row'
      = if row = row' then some (Keyed.put ((g.row? row).getD []) column value)
        else g.row? row' := by
  simp only [put, row?, Keyed.get?_put]

/-- Writing changes one cell and no other. -/
theorem cell?_put (g : Grid α) (row column : String) (value : α) (row' column' : String)
    : (g.put row column value).cell? row' column'
      = if row = row' ∧ column = column' then some value else g.cell? row' column' := by
  simp only [cell?, row?_put]
  by_cases sameRow : row = row'
  · subst sameRow
    by_cases sameColumn : column = column'
    · simp [Keyed.get?_put, sameColumn]
    · cases found : g.row? row <;> simp [Keyed.get?_put, sameColumn]
  · simp [sameRow]

theorem mem_columnsOf_iff : column ∈ g.columnsOf row ↔ (g.cell? row column).isSome := by
  simp only [columnsOf, cell?, Keyed.mem_keys_iff]
  cases g.row? row <;> simp

theorem mem_columnsOf_put
    : column' ∈ (g.put row column value).columnsOf row'
      ↔ (row' = row ∧ column' = column) ∨ column' ∈ g.columnsOf row' := by
  simp only [mem_columnsOf_iff, cell?_put]
  by_cases same : row = row' ∧ column = column'
  · obtain ⟨rfl, rfl⟩ := same
    simp
  · have : ¬ (row' = row ∧ column' = column) := fun h => same ⟨h.1.symm, h.2.symm⟩
    simp [same, this]

theorem mem_rowNames_iff : row ∈ g.rowNames ↔ (g.row? row).isSome :=
  Keyed.mem_keys_iff

theorem length_rowNames (g : Grid α) : g.rowNames.length = g.size := by
  simp [rowNames, Keyed.keys, size]

theorem mem_rowNames_put
    : row' ∈ (g.put row column value).rowNames ↔ row' = row ∨ row' ∈ g.rowNames := by
  simp only [rowNames, put, Keyed.mem_keys_put]

/-- A row with a column is there. -/
theorem mem_rowNames_of_mem_columnsOf (member : column ∈ g.columnsOf row) : row ∈ g.rowNames := by
  rw [mem_rowNames_iff]
  cases found : g.row? row with
  | none => simp [columnsOf, found, Keyed.keys] at member
  | some columns => rfl

theorem cell?_addRow (g : Grid α) (row : String) (row' column : String)
    : (g.addRow row).cell? row' column = g.cell? row' column := by
  unfold addRow
  split
  · rfl
  · next absent =>
    have none : g.rows.get? row = none := by
      simpa [Keyed.has] using absent
    simp only [cell?, row?, Keyed.get?_put]
    by_cases same : row = row'
    · subst same
      simp [none]
    · simp [same]

theorem mem_columnsOf_addRow
    : column ∈ (g.addRow row).columnsOf row' ↔ column ∈ g.columnsOf row' := by
  simp only [mem_columnsOf_iff, cell?_addRow]

theorem mem_rowNames_addRow : row' ∈ (g.addRow row).rowNames ↔ row' = row ∨ row' ∈ g.rowNames := by
  unfold addRow
  split
  · next present =>
    have member : row ∈ g.rowNames := Keyed.has_iff.mp present
    constructor
    · exact Or.inr
    · rintro (rfl | member')
      · exact member
      · exact member'
  · simp only [rowNames, Keyed.mem_keys_put]

theorem mem_columnsOf_putAll (g : Grid α) (row : String) (columns : List String) (value : α)
    : column' ∈ (g.putAll row columns value).columnsOf row'
      ↔ (row' = row ∧ column' ∈ columns) ∨ column' ∈ g.columnsOf row' := by
  induction columns generalizing g with
  | nil => simp [putAll]
  | cons column rest ih =>
    have step : g.putAll row (column :: rest) value
        = (g.put row column value).putAll row rest value := rfl
    rw [step, ih, mem_columnsOf_put, List.mem_cons]
    tauto

theorem mem_rowNames_putAll (g : Grid α) (row : String) (columns : List String) (value : α)
    : row' ∈ (g.putAll row columns value).rowNames
      ↔ (row' = row ∧ columns ≠ []) ∨ row' ∈ g.rowNames := by
  induction columns generalizing g with
  | nil => simp [putAll]
  | cons column rest ih =>
    have step : g.putAll row (column :: rest) value
        = (g.put row column value).putAll row rest value := rfl
    rw [step, ih, mem_rowNames_put]
    simp only [ne_eq, List.cons_ne_nil, not_false_eq_true, and_true]
    tauto

/-- No row and no column of a row is listed twice. -/
structure Orderly (g : Grid α) : Prop where
  rows : g.rowNames.Nodup
  columns : ∀ row, (g.columnsOf row).Nodup

theorem Orderly.empty : (Grid.empty : Grid α).Orderly :=
  ⟨by simp [rowNames, Grid.empty, Keyed.keys], by simp [columnsOf, row?, Grid.empty, Keyed.keys]⟩

theorem Orderly.put (orderly : g.Orderly) (row column : String) (value : α)
    : (g.put row column value).Orderly := by
  refine ⟨Keyed.nodup_keys_put orderly.rows, ?_⟩
  intro row'
  simp only [columnsOf, row?_put]
  split
  · exact Keyed.nodup_keys_put (orderly.columns row)
  · exact orderly.columns row'

theorem Orderly.addRow (orderly : g.Orderly) (row : String) : (g.addRow row).Orderly := by
  unfold Grid.addRow
  split
  · exact orderly
  · next absent =>
    refine ⟨Keyed.nodup_keys_put orderly.rows, ?_⟩
    intro row'
    simp only [columnsOf, row?, Keyed.get?_put]
    split
    · simp [Keyed.keys]
    · exact orderly.columns row'

theorem Orderly.putAll (orderly : g.Orderly) (row : String) (columns : List String) (value : α)
    : (g.putAll row columns value).Orderly := by
  induction columns generalizing g with
  | nil => exact orderly
  | cons column rest ih => exact ih (orderly.put row column value)

/-- A row that holds a column is listed with it. -/
theorem Orderly.mem_rowsWith (orderly : g.Orderly)
    : row ∈ g.rowsWith column ↔ column ∈ g.columnsOf row := by
  have listed : row ∈ g.rowsWith column
      ↔ ∃ columns, (row, columns) ∈ g.rows ∧ column ∈ Keyed.keys columns := by
    simp [rowsWith, Keyed.keys, Keyed.has, ← Keyed.mem_keys_iff]
  rw [listed]
  constructor
  · rintro ⟨columns, member, holds⟩
    have found := (Keyed.mem_iff_get? orderly.rows).mp member
    simpa [columnsOf, row?, found] using holds
  · intro member
    obtain ⟨columns, found⟩ := Option.isSome_iff_exists.mp
      (mem_rowNames_iff.mp (mem_rowNames_of_mem_columnsOf member))
    refine ⟨columns, (Keyed.mem_iff_get? orderly.rows).mpr found, ?_⟩
    simpa [columnsOf, found] using member

theorem Orderly.nodup_rowsWith (orderly : g.Orderly) (column : String)
    : (g.rowsWith column).Nodup :=
  List.Nodup.sublist (List.filter_sublist.map _) orderly.rows

theorem Orderly.mem_allColumns (orderly : g.Orderly)
    : column ∈ g.allColumns ↔ ∃ row, column ∈ g.columnsOf row := by
  simp only [allColumns, Keyed.values, List.flatMap_map, List.mem_flatMap, Prod.exists]
  constructor
  · rintro ⟨row, columns, member, holds⟩
    have found := (Keyed.mem_iff_get? orderly.rows).mp member
    exact ⟨row, by simpa [columnsOf, row?, found] using holds⟩
  · rintro ⟨row, member⟩
    obtain ⟨columns, found⟩ := Option.isSome_iff_exists.mp
      (mem_rowNames_iff.mp (mem_rowNames_of_mem_columnsOf member))
    refine ⟨row, columns, (Keyed.mem_iff_get? orderly.rows).mpr found, ?_⟩
    simpa [columnsOf, found] using member

/-- Every cell that is there counts. -/
def Marks (g : Grid Int) : Prop :=
  ∀ row column value, g.cell? row column = some value → value = 1

theorem Marks.empty : (Grid.empty : Grid Int).Marks := by
  intro row column value found
  cases found

theorem Marks.put {g : Grid Int} (marks : g.Marks) (row column : String)
    : (g.put row column 1).Marks := by
  intro row' column' value found
  rw [cell?_put] at found
  split at found
  · exact (Option.some.inj found).symm
  · exact marks row' column' value found

theorem Marks.addRow {g : Grid Int} (marks : g.Marks) (row : String) : (g.addRow row).Marks := by
  intro row' column value found
  rw [cell?_addRow] at found
  exact marks row' column value found

theorem Marks.putAll {g : Grid Int} (marks : g.Marks) (row : String) (columns : List String)
    : (g.putAll row columns 1).Marks := by
  induction columns generalizing g with
  | nil => exact marks
  | cons column rest ih => exact ih (marks.put row column)

/-- In a table of marks, a cell counts as soon as it is there. -/
theorem Marks.marked_iff {g : Grid Int} (marks : g.Marks)
    : g.marked row column = true ↔ column ∈ g.columnsOf row := by
  rw [mem_columnsOf_iff]
  simp only [marked, holds]
  cases found : g.cell? row column with
  | none => simp
  | some value => simp [marks row column value found]

section Written

variable {ε : Type} (keeps : ε → Bool) (rowOf : ε → String) (columnsAt : ε → List String)

/-- Writes the columns of one row, and the row itself if it is kept without columns. -/
def write (g : Grid Int) (entry : ε) : Grid Int :=
  (if keeps entry then g.addRow (rowOf entry) else g).putAll (rowOf entry) (columnsAt entry) 1

theorem mem_columnsOf_write {g : Grid Int} {entry : ε}
    : column ∈ (g.write keeps rowOf columnsAt entry).columnsOf row
      ↔ (rowOf entry = row ∧ column ∈ columnsAt entry) ∨ column ∈ g.columnsOf row := by
  rw [write, mem_columnsOf_putAll, eq_comm]
  split
  · rw [mem_columnsOf_addRow]
  · rfl

theorem mem_rowNames_write {g : Grid Int} {entry : ε}
    : row ∈ (g.write keeps rowOf columnsAt entry).rowNames
      ↔ (rowOf entry = row ∧ (keeps entry = true ∨ columnsAt entry ≠ [])) ∨ row ∈ g.rowNames := by
  rw [write, mem_rowNames_putAll, eq_comm]
  split
  · next kept =>
    rw [mem_rowNames_addRow, eq_comm]
    tauto
  · next dropped => tauto

/-- After writing some rows, a cell is there if one of them wrote it or if it was there before. -/
theorem mem_columnsOf_foldl_write (entries : List ε) (g : Grid Int)
    : column ∈ (entries.foldl (write keeps rowOf columnsAt) g).columnsOf row
      ↔ (∃ entry ∈ entries, rowOf entry = row ∧ column ∈ columnsAt entry)
        ∨ column ∈ g.columnsOf row := by
  induction entries generalizing g with
  | nil => simp
  | cons entry rest ih =>
    rw [List.foldl_cons, ih, mem_columnsOf_write, List.exists_mem_cons_iff, ← or_assoc,
      or_comm (a := ∃ entry ∈ rest, _)]

theorem mem_rowNames_foldl_write (entries : List ε) (g : Grid Int)
    : row ∈ (entries.foldl (write keeps rowOf columnsAt) g).rowNames
      ↔ (∃ entry ∈ entries, rowOf entry = row ∧ (keeps entry = true ∨ columnsAt entry ≠ []))
        ∨ row ∈ g.rowNames := by
  induction entries generalizing g with
  | nil => simp
  | cons entry rest ih =>
    rw [List.foldl_cons, ih, mem_rowNames_write, List.exists_mem_cons_iff, ← or_assoc,
      or_comm (a := ∃ entry ∈ rest, _)]

theorem Orderly.foldl_write (entries : List ε) {g : Grid Int} (orderly : g.Orderly)
    : (entries.foldl (write keeps rowOf columnsAt) g).Orderly := by
  induction entries generalizing g with
  | nil => exact orderly
  | cons entry rest ih =>
    refine ih (Orderly.putAll ?_ ..)
    split
    · exact orderly.addRow _
    · exact orderly

theorem Marks.foldl_write (entries : List ε) {g : Grid Int} (marks : g.Marks)
    : (entries.foldl (write keeps rowOf columnsAt) g).Marks := by
  induction entries generalizing g with
  | nil => exact marks
  | cons entry rest ih =>
    refine ih (Marks.putAll ?_ _ _)
    split
    · exact marks.addRow _
    · exact marks

end Written

theorem not_mem_columnsOf_empty : column ∉ (Grid.empty : Grid α).columnsOf row := by
  simp [columnsOf, row?, Grid.empty, Keyed.keys]

theorem not_mem_rowNames_empty : row ∉ (Grid.empty : Grid α).rowNames := by
  simp [rowNames, Grid.empty, Keyed.keys]

/-- A table of pairs is written one cell after the other. -/
theorem ofPairs_eq (pairs : List (String × String))
    : ofPairs pairs
      = pairs.foldl (write (fun _ => false) (fun pair => pair.1) (fun pair => [pair.2])) .empty :=
  rfl

/-- A table of pairs has a cell for each pair and no other. -/
theorem mem_columnsOf_ofPairs (pairs : List (String × String))
    : column ∈ (ofPairs pairs).columnsOf row ↔ (row, column) ∈ pairs := by
  rw [ofPairs_eq, mem_columnsOf_foldl_write]
  simp only [not_mem_columnsOf_empty, or_false, List.mem_singleton, Prod.exists]
  constructor
  · rintro ⟨first, second, member, rfl, rfl⟩
    exact member
  · intro member
    exact ⟨row, column, member, rfl, rfl⟩

theorem mem_rowNames_ofPairs (pairs : List (String × String))
    : row ∈ (ofPairs pairs).rowNames ↔ ∃ column, (row, column) ∈ pairs := by
  rw [ofPairs_eq, mem_rowNames_foldl_write]
  simp [not_mem_rowNames_empty]

theorem Orderly.ofPairs (pairs : List (String × String)) : (Grid.ofPairs pairs).Orderly := by
  rw [ofPairs_eq]
  exact .foldl_write _ _ _ pairs .empty

theorem Marks.ofPairs (pairs : List (String × String)) : (Grid.ofPairs pairs).Marks := by
  rw [ofPairs_eq]
  exact .foldl_write _ _ _ pairs .empty

end ProgramQuery.Grid

/-! Values under text keys, in the order in which the keys were first written. -/

namespace ProgramQuery

abbrev Keyed (α : Type) := List (String × α)

namespace Keyed

variable {α : Type}

def get? (table : Keyed α) (key : String) : Option α :=
  match table with
  | [] => none
  | (k, value) :: rest => if k == key then some value else get? rest key

def has (table : Keyed α) (key : String) : Bool :=
  (table.get? key).isSome

/-- Writing a key that is there already keeps its place. -/
def put (table : Keyed α) (key : String) (value : α) : Keyed α :=
  match table with
  | [] => [(key, value)]
  | (k, old) :: rest => if k == key then (k, value) :: rest else (k, old) :: put rest key value

/-- The values of a list of entries. Of several entries with one key the last counts, in the place of
the first. -/
def ofEntries (entries : List (String × α)) : Keyed α :=
  entries.foldl (fun table entry => table.put entry.1 entry.2) []

def keys (table : Keyed α) : List String :=
  table.map (·.1)

def values (table : Keyed α) : List α :=
  table.map (·.2)

@[simp]
theorem get?_nil (key : String) : get? ([] : Keyed α) key = none := rfl

theorem get?_put_self (table : Keyed α) (key : String) (value : α)
    : (table.put key value).get? key = some value := by
  induction table with
  | nil => simp [put, get?]
  | cons entry rest ih =>
    obtain ⟨k, old⟩ := entry
    by_cases h : k = key <;> simp [put, get?, h, ih]

theorem get?_put_of_ne (table : Keyed α) {key other : String} (value : α) (h : key ≠ other)
    : (table.put key value).get? other = table.get? other := by
  induction table with
  | nil => simp [put, get?, h]
  | cons entry rest ih =>
    obtain ⟨k, old⟩ := entry
    by_cases hk : k = key
    · subst hk
      simp [put, get?, h]
    · by_cases ho : k = other
      · subst ho
        simp [put, get?, hk]
      · simp [put, get?, hk, ho, ih]

end Keyed

end ProgramQuery

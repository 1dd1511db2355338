import ProgramQuery.Proofs.Program.Effects

/-! Tables of effects written statement by statement. A statement is noted in its own row and in that of
the procedure around it. When a loop or a conditional ends, it takes over the rows of the statements
directly inside; this is the one write that needs two rows to be there already. They always are, and the
rows hold the effects that the shape of the program defines.
-/

namespace ProgramQuery

open Text

namespace Grid

def clearRow (g : Grid Int) (row : String) : Grid Int :=
  ⟨g.rows.put row []⟩

def mark? (g : Grid Int) (row column : String) : Option (Grid Int) :=
  if g.rows.has row then some (g.put row column 1) else none

variable {g : Grid Int} {row row' column : String}

theorem mem_columnsOf_clearRow
    : column ∈ (g.clearRow row).columnsOf row' ↔ row' ≠ row ∧ column ∈ g.columnsOf row' := by
  simp only [columnsOf, row?, clearRow, Keyed.get?_put]
  by_cases same : row = row'
  · simp [same, Keyed.keys]
  · simp [same, Ne.symm same]

theorem mem_rowNames_clearRow
    : row' ∈ (g.clearRow row).rowNames ↔ row' = row ∨ row' ∈ g.rowNames := by
  simp only [rowNames, clearRow, Keyed.mem_keys_put]

theorem mark?_eq_some (there : row ∈ g.rowNames) : g.mark? row column = some (g.put row column 1) :=
  if_pos (Keyed.has_iff.mpr there)

end Grid

def Stmt.members (line : Nat) : List Stmt → List (Nat × Stmt)
  | [] => []
  | s :: rest => (line, s) :: Stmt.members (line + s.size) rest

theorem Stmt.map_members (line : Nat) (statements : List Stmt)
    : (Stmt.members line statements).map (·.2) = statements := by
  induction statements generalizing line with
  | nil => rfl
  | cons s rest ih => rw [Stmt.members, List.map_cons, ih]

theorem Stmt.mem_listings_of_mem_members {line : Nat} {statements : List Stmt} {child : Nat × Stmt}
    (member : child ∈ Stmt.members line statements)
    : child ∈ Stmt.listings line statements := by
  induction statements generalizing line with
  | nil => cases member
  | cons s rest ih =>
    rcases List.mem_cons.mp member with rfl | member
    · exact List.mem_append_left _ (by cases s <;> simp [Stmt.listing])
    · exact List.mem_append_right _ (ih member)

/-- How a table of effects is kept: what an assignment and what a condition adds, and whether the row of
a statement starts anew before what is inside is taken over. -/
structure Ledger where
  ofAssign : String → Expr → List String
  ofCondition : String → List String
  anew : Bool

namespace Ledger

def modified : Ledger where
  ofAssign target _ := [target]
  ofCondition _ := []
  anew := true

def used : Ledger where
  ofAssign _ value := value.names
  ofCondition condition := [condition]
  anew := false

def effect (ledger : Ledger) : Effect
  | .assign target value => ledger.ofAssign target value
  | .call _ => []
  | .loop condition _ => ledger.ofCondition condition
  | .branch condition _ _ => ledger.ofCondition condition

theorem effect_modified : modified.effect = Stmt.ownModified := by
  funext s
  cases s <;> rfl

theorem effect_used : used.effect = Stmt.ownUsed := by
  funext s
  cases s <;> rfl

/-- Rows that are not started anew come up with the condition. -/
def Sound (ledger : Ledger) : Prop :=
  ∀ condition, ledger.ofCondition condition = [] ↔ ledger.anew = true

theorem sound_modified : modified.Sound := fun _ => by simp [modified]

theorem sound_used : used.Sound := fun _ => by simp [used]

def note (owner : String) (line : Nat) (names : List String) (g : Grid Int) : Grid Int :=
  names.foldl (fun g x => (g.put (showInt line) x 1).put owner x 1) g

def take (owner : String) (line : Nat) (names : List String) (g : Grid Int) : Option (Grid Int) :=
  names.foldlM (fun g x => do (← g.mark? (showInt line) x).mark? owner x) g

/-- Takes over the row of a statement directly inside, unless it is a call. -/
def takeRow (owner : String) (line : Nat) (g : Grid Int) : Nat × Stmt → Option (Grid Int)
  | (_, .call _) => some g
  | (child, _) => take owner line (g.columnsOf (showInt child)) g

def gather (owner : String) (line : Nat) (children : List (Nat × Stmt)) (g : Grid Int)
    : Option (Grid Int) :=
  children.foldlM (takeRow owner line) g

def start (ledger : Ledger) (line : Nat) (g : Grid Int) : Grid Int :=
  if ledger.anew then g.clearRow (showInt line) else g

variable {ledger : Ledger} {owner row x : String} {line : Nat} {names : List String} {g g' : Grid Int}

theorem mem_columnsOf_note
    : x ∈ (note owner line names g).columnsOf row
      ↔ (x ∈ names ∧ (row = showInt line ∨ row = owner)) ∨ x ∈ g.columnsOf row := by
  induction names generalizing g with
  | nil => simp [note]
  | cons name rest ih =>
    have step : note owner line (name :: rest) g
        = note owner line rest ((g.put (showInt line) name 1).put owner name 1) := rfl
    rw [step, ih, Grid.mem_columnsOf_put, Grid.mem_columnsOf_put, List.mem_cons]
    tauto

theorem mem_rowNames_note (there : row ∈ g.rowNames)
    : row ∈ (note owner line names g).rowNames := by
  induction names generalizing g with
  | nil => exact there
  | cons name rest ih =>
    exact ih (Grid.mem_rowNames_put.mpr (.inr (Grid.mem_rowNames_put.mpr (.inr there))))

theorem keeps_start (there : row ∈ g.rowNames) : row ∈ (ledger.start line g).rowNames := by
  rw [start]
  split
  · exact Grid.mem_rowNames_clearRow.mpr (.inr there)
  · exact there

/-- Where both rows are there, names are taken over. -/
theorem take_eq_some (there : showInt line ∈ g.rowNames) (around : names ≠ [] → owner ∈ g.rowNames)
    : take owner line names g = some (note owner line names g) := by
  induction names generalizing g with
  | nil => rfl
  | cons name rest ih =>
    have first : g.mark? (showInt line) name = some (g.put (showInt line) name 1) :=
      Grid.mark?_eq_some there
    have second : (g.put (showInt line) name 1).mark? owner name
        = some ((g.put (showInt line) name 1).put owner name 1) :=
      Grid.mark?_eq_some (Grid.mem_rowNames_put.mpr (.inr (around (by simp))))
    have keep {row : String} (there : row ∈ g.rowNames)
        : row ∈ ((g.put (showInt line) name 1).put owner name 1).rowNames :=
      Grid.mem_rowNames_put.mpr (.inr (Grid.mem_rowNames_put.mpr (.inr there)))
    rw [take, List.foldlM_cons]
    simp only [first, second, Option.bind_eq_bind, Option.bind_some]
    exact ih (keep there) fun _ => keep (around (by simp))

/-- The row of a call is empty, so that all rows are treated alike. -/
theorem takeRow_eq {child : Nat × Stmt}
    (calls : ∀ callee, child.2 = .call callee → g.columnsOf (showInt child.1) = [])
    : takeRow owner line g child = take owner line (g.columnsOf (showInt child.1)) g := by
  obtain ⟨n, s⟩ := child
  cases s with
  | call callee =>
    have empty : g.columnsOf (showInt n) = [] := calls callee rfl
    rw [empty]
    rfl
  | _ => rfl

/-- What is inside is taken over if it was noted for the procedure too. -/
theorem exists_gather (apart : ∀ n : Nat, owner ≠ showInt n) {children : List (Nat × Stmt)}
    (there : showInt line ∈ g.rowNames) (below : ∀ child ∈ children, child.1 ≠ line)
    (calls : ∀ child ∈ children, ∀ callee, child.2 = .call callee →
      g.columnsOf (showInt child.1) = [])
    (around : ∀ child ∈ children, ∀ x ∈ g.columnsOf (showInt child.1), x ∈ g.columnsOf owner)
    : ∃ g', gather owner line children g = some g' ∧ g.rowNames ⊆ g'.rowNames
      ∧ ∀ row x, x ∈ g'.columnsOf row
        ↔ x ∈ g.columnsOf row
          ∨ row = showInt line ∧ ∃ child ∈ children, x ∈ g.columnsOf (showInt child.1) := by
  induction children generalizing g with
  | nil => exact ⟨g, rfl, List.Subset.refl _, by simp⟩
  | cons child rest ih =>
    have names := around child (by simp)
    have taken : takeRow owner line g child
        = some (note owner line (g.columnsOf (showInt child.1)) g) := by
      rw [takeRow_eq (calls child (by simp))]
      refine take_eq_some there fun some => ?_
      obtain ⟨x, member⟩ := List.exists_mem_of_ne_nil _ some
      exact Grid.mem_rowNames_of_mem_columnsOf (names x member)
    -- the rows of the other statements inside and the set of the procedure's names stay as they were
    have after (row x : String)
        : x ∈ (note owner line (g.columnsOf (showInt child.1)) g).columnsOf row
          ↔ x ∈ g.columnsOf row ∨ row = showInt line ∧ x ∈ g.columnsOf (showInt child.1) := by
      rw [mem_columnsOf_note]
      constructor
      · rintro (⟨member, rfl | rfl⟩ | member)
        · exact .inr ⟨rfl, member⟩
        · exact .inl (names x member)
        · exact .inl member
      · rintro (member | ⟨rfl, member⟩)
        · exact .inr member
        · exact .inl ⟨member, .inl rfl⟩
    have same (n : Nat) (other : n ≠ line) (x : String)
        : x ∈ (note owner line (g.columnsOf (showInt child.1)) g).columnsOf (showInt n)
          ↔ x ∈ g.columnsOf (showInt n) := by
      rw [after]
      simp [other]
    obtain ⟨g', gathered, kept, columns⟩ := ih
      (g := note owner line (g.columnsOf (showInt child.1)) g) (mem_rowNames_note there)
      (fun c member => below c (by simp [member]))
      (fun c member callee isCall => by
        rw [List.eq_nil_iff_forall_not_mem]
        intro x found
        rw [same c.1 (below c (by simp [member])), calls c (by simp [member]) callee isCall] at found
        cases found)
      (fun c member x found => by
        rw [same c.1 (below c (by simp [member]))] at found
        exact (after owner x).mpr (.inl (around c (by simp [member]) x found)))
    refine ⟨g', ?_, fun row there => kept (mem_rowNames_note there), fun row x => ?_⟩
    · rw [gather, List.foldlM_cons, taken]
      exact gathered
    · rw [columns, after]
      have others : (∃ c ∈ rest, x ∈ (note owner line (g.columnsOf (showInt child.1)) g).columnsOf
          (showInt c.1)) ↔ ∃ c ∈ rest, x ∈ g.columnsOf (showInt c.1) := by
        constructor
        · rintro ⟨c, member, found⟩
          exact ⟨c, member, (same c.1 (below c (by simp [member])) x).mp found⟩
        · rintro ⟨c, member, found⟩
          exact ⟨c, member, (same c.1 (below c (by simp [member])) x).mpr found⟩
      rw [others]
      simp only [List.mem_cons, exists_eq_or_imp]
      rw [or_assoc, ← and_or_left]

theorem mem_ofList_iff_listings (effect : Effect) (start : Nat) (statements : List Stmt)
    : x ∈ effect.ofList statements
      ↔ ∃ entry ∈ Stmt.listings start statements, x ∈ effect entry.2 := by
  rw [Effect.mem_ofList]
  constructor
  · rintro ⟨s, member, t, within, does⟩
    obtain ⟨n, listed⟩ := (Stmt.mem_listings_iff_within start statements t).mpr ⟨s, member, within⟩
    exact ⟨(n, t), listed, does⟩
  · rintro ⟨⟨n, t⟩, listed, does⟩
    obtain ⟨s, member, within⟩ :=
      (Stmt.mem_listings_iff_within start statements t).mp ⟨n, listed⟩
    exact ⟨s, member, t, within, does⟩

theorem mem_ofList_iff_members (effect : Effect) (start : Nat) (statements : List Stmt)
    : x ∈ effect.ofList statements
      ↔ ∃ child ∈ Stmt.members start statements, x ∈ effect.ofList [child.2] := by
  simp only [Effect.mem_ofList, List.mem_singleton, exists_eq_left]
  nth_rewrite 1 [← Stmt.map_members start statements]
  simp only [List.mem_map]
  constructor
  · rintro ⟨_, ⟨child, member, rfl⟩, inside⟩
    exact ⟨child, member, inside⟩
  · rintro ⟨child, member, inside⟩
    exact ⟨_, ⟨child, member, rfl⟩, inside⟩

/-- Some numbered statements have been written in a procedure, and nothing else. -/
structure Written (ledger : Ledger) (owner : String) (entries : List (Nat × Stmt)) (g g' : Grid Int)
    : Prop where
  keeps : g.rowNames ⊆ g'.rowNames
  around : ∀ x, x ∈ g'.columnsOf owner
    ↔ x ∈ g.columnsOf owner ∨ ∃ entry ∈ entries, x ∈ ledger.effect entry.2
  rows : ∀ entry ∈ entries, ∀ x,
    x ∈ g'.columnsOf (showInt entry.1) ↔ x ∈ ledger.effect.ofList [entry.2]
  others : ∀ row, row ≠ owner → (∀ entry ∈ entries, row ≠ showInt entry.1) →
    ∀ x, x ∈ g'.columnsOf row ↔ x ∈ g.columnsOf row

theorem Written.nil (ledger : Ledger) (owner : String) (g : Grid Int) : ledger.Written owner [] g g :=
  ⟨List.Subset.refl _, by simp, by simp, by simp⟩

theorem Written.append {before after : List (Nat × Stmt)} {g'' : Grid Int}
    (apart : ∀ n : Nat, owner ≠ showInt n)
    (different : ∀ entry ∈ before, ∀ entry' ∈ after, entry.1 ≠ entry'.1)
    (first : ledger.Written owner before g g') (second : ledger.Written owner after g' g'')
    : ledger.Written owner (before ++ after) g g'' where
  keeps := List.Subset.trans first.keeps second.keeps
  around x := by
    rw [second.around, first.around]
    simp only [List.mem_append, or_and_right, exists_or, or_assoc]
  rows := by
    rw [List.forall_mem_append]
    refine ⟨fun entry member x => ?_, second.rows⟩
    rw [second.others _ (apart entry.1).symm, first.rows entry member]
    intro entry' member' same
    exact different entry member entry' member' (showInt_injective same)
  others := by
    intro row notOwner notListed x
    rw [List.forall_mem_append] at notListed
    rw [second.others row notOwner notListed.2, first.others row notOwner notListed.1]

/-- The row of an assignment may start anew, since it was empty. -/
theorem Written.assign (apart : ∀ n : Nat, owner ≠ showInt n)
    (blank : g.columnsOf (showInt line) = []) (target : String) (value : Expr)
    : ledger.Written owner [(line, .assign target value)] g
        (note owner line (ledger.ofAssign target value) (ledger.start line g)) := by
  have started (row x : String) : x ∈ (ledger.start line g).columnsOf row ↔ x ∈ g.columnsOf row := by
    rw [start]
    split
    · rw [Grid.mem_columnsOf_clearRow]
      refine ⟨And.right, fun member => ⟨?_, member⟩⟩
      rintro rfl
      simp [blank] at member
    · rfl
  have own (x : String) : x ∈ ledger.effect.ofList [.assign target value]
      ↔ x ∈ ledger.ofAssign target value := by
    simp [mem_ofList_iff_listings ledger.effect 1, Stmt.listings, Stmt.listing, effect]
  refine ⟨fun row there => mem_rowNames_note (keeps_start there), fun x => ?_,
    fun entry member x => ?_, fun row notOwner notListed x => ?_⟩
  · rw [mem_columnsOf_note, started]
    simp [apart, effect, or_comm]
  · obtain rfl := List.mem_singleton.mp member
    rw [mem_columnsOf_note, started, own]
    simp [blank]
  · rw [mem_columnsOf_note, started]
    have notLine := notListed _ (List.mem_singleton.mpr rfl)
    simp [notOwner, notLine]

theorem Written.call (blank : g.columnsOf (showInt line) = []) (callee : String)
    : ledger.Written owner [(line, .call callee)] g g := by
  refine ⟨List.Subset.refl _, by simp [effect], fun entry member x => ?_, by simp⟩
  obtain rfl := List.mem_singleton.mp member
  simp [blank, mem_ofList_iff_listings ledger.effect 1, Stmt.listings, Stmt.listing, effect]

/-- A loop or a conditional is being written: its condition is noted, some statements inside it are
written, and some lists directly inside it are taken over. -/
structure Partly (ledger : Ledger) (owner : String) (line : Nat) (condition : String)
    (gathered : List Stmt) (written : List (Nat × Stmt)) (g g' : Grid Int) : Prop where
  keeps : g.rowNames ⊆ g'.rowNames
  below : ∀ entry ∈ written, line < entry.1
  around : ∀ x, x ∈ g'.columnsOf owner
    ↔ x ∈ g.columnsOf owner ∨ x ∈ ledger.ofCondition condition
      ∨ ∃ entry ∈ written, x ∈ ledger.effect entry.2
  own : ∀ x, x ∈ g'.columnsOf (showInt line)
    ↔ x ∈ ledger.ofCondition condition ∨ x ∈ ledger.effect.ofList gathered
  rows : ∀ entry ∈ written, ∀ x,
    x ∈ g'.columnsOf (showInt entry.1) ↔ x ∈ ledger.effect.ofList [entry.2]
  others : ∀ row, row ≠ owner → row ≠ showInt line → (∀ entry ∈ written, row ≠ showInt entry.1) →
    ∀ x, x ∈ g'.columnsOf row ↔ x ∈ g.columnsOf row

section Partly

variable {condition : String} {gathered : List Stmt} {written entries : List (Nat × Stmt)}
  {g'' : Grid Int} (apart : ∀ n : Nat, owner ≠ showInt n)
include apart

theorem Partly.noted (blank : g.columnsOf (showInt line) = [])
    : ledger.Partly owner line condition [] [] g
        (note owner line (ledger.ofCondition condition) g) := by
  refine ⟨fun row there => mem_rowNames_note there, by simp, fun x => ?_, fun x => ?_, by simp,
    fun row notOwner notLine _ x => ?_⟩
  · rw [mem_columnsOf_note]
    simp [apart, or_comm]
  · rw [mem_columnsOf_note]
    simp [blank, Effect.mem_ofList]
  · rw [mem_columnsOf_note]
    simp [notOwner, notLine]

theorem Partly.write (partly : ledger.Partly owner line condition gathered written g g')
    (inside : ledger.Written owner entries g' g'') (below : ∀ entry ∈ entries, line < entry.1)
    (different : ∀ entry ∈ written, ∀ entry' ∈ entries, entry.1 ≠ entry'.1)
    : ledger.Partly owner line condition gathered (written ++ entries) g g'' where
  keeps := List.Subset.trans partly.keeps inside.keeps
  below := List.forall_mem_append.mpr ⟨partly.below, below⟩
  around x := by
    rw [inside.around, partly.around]
    simp only [List.mem_append, or_and_right, exists_or, or_assoc]
  own x := by
    rw [inside.others _ (apart line).symm, partly.own]
    exact fun entry member same => (below entry member).ne (showInt_injective same)
  rows := by
    rw [List.forall_mem_append]
    refine ⟨fun entry member x => ?_, inside.rows⟩
    rw [inside.others _ (apart entry.1).symm, partly.rows entry member]
    exact fun entry' member' same => different entry member entry' member' (showInt_injective same)
  others := by
    intro row notOwner notLine notListed x
    rw [List.forall_mem_append] at notListed
    rw [inside.others row notOwner notListed.2, partly.others row notOwner notLine notListed.1]

omit apart in
/-- Starting the row anew takes nothing away, and after that the row is there. -/
theorem Partly.start (sound : ledger.Sound)
    (partly : ledger.Partly owner line condition [] written g g')
    : ledger.Partly owner line condition [] written g (ledger.start line g')
      ∧ showInt line ∈ (ledger.start line g').rowNames := by
  by_cases anew : ledger.anew = true
  · have none : ledger.ofCondition condition = [] := (sound condition).mpr anew
    have kept (row x : String)
        : x ∈ (ledger.start line g').columnsOf row ↔ x ∈ g'.columnsOf row := by
      rw [Ledger.start, if_pos anew, Grid.mem_columnsOf_clearRow]
      refine ⟨And.right, fun member => ⟨?_, member⟩⟩
      rintro rfl
      simp [partly.own, none, Effect.mem_ofList] at member
    refine ⟨⟨fun row there => keeps_start (partly.keeps there), partly.below, fun x => ?_,
      fun x => ?_, fun entry member x => ?_, fun row a b c x => ?_⟩, ?_⟩
    · rw [kept, partly.around]
    · rw [kept, partly.own]
    · rw [kept, partly.rows entry member]
    · rw [kept, partly.others row a b c]
    · rw [Ledger.start, if_pos anew, Grid.mem_rowNames_clearRow]
      exact .inl rfl
  · rw [Ledger.start, if_neg anew]
    refine ⟨partly, ?_⟩
    obtain ⟨x, member⟩ := List.exists_mem_of_ne_nil _ (mt (sound condition).mp anew)
    exact Grid.mem_rowNames_of_mem_columnsOf ((partly.own x).mpr (.inl member))

/-- Taking over a list whose statements have been written finds both rows. -/
theorem Partly.gather (partly : ledger.Partly owner line condition gathered written g g')
    (there : showInt line ∈ g'.rowNames) {first : Nat} {body : List Stmt}
    (inside : ∀ entry ∈ Stmt.listings first body, entry ∈ written) (below : line < first)
    : ∃ g'', Ledger.gather owner line (Stmt.members first body) g' = some g''
      ∧ g'.rowNames ⊆ g''.rowNames
      ∧ ledger.Partly owner line condition (gathered ++ body) written g g'' := by
  have listed (child : Nat × Stmt) (member : child ∈ Stmt.members first body)
      : child ∈ Stmt.listings first body :=
    Stmt.mem_listings_of_mem_members member
  have later (child : Nat × Stmt) (member : child ∈ Stmt.members first body) : child.1 ≠ line := by
    have := (Stmt.exists_mem_listings_iff.mp ⟨child.2, listed child member⟩).1
    omega
  have columns (child : Nat × Stmt) (member : child ∈ Stmt.members first body) (x : String)
      : x ∈ g'.columnsOf (showInt child.1) ↔ x ∈ ledger.effect.ofList [child.2] :=
    partly.rows child (inside child (listed child member)) x
  have gatheredFrom (x : String)
      : (∃ child ∈ Stmt.members first body, x ∈ g'.columnsOf (showInt child.1))
        ↔ x ∈ ledger.effect.ofList body := by
    rw [mem_ofList_iff_members ledger.effect first]
    constructor
    · rintro ⟨child, member, found⟩
      exact ⟨child, member, (columns child member x).mp found⟩
    · rintro ⟨child, member, does⟩
      exact ⟨child, member, (columns child member x).mpr does⟩
  obtain ⟨g'', taken, kept, after⟩ := exists_gather apart there later
    (fun child member callee isCall => by
      rw [List.eq_nil_iff_forall_not_mem]
      intro x found
      rw [columns child member, isCall, mem_ofList_iff_listings ledger.effect 1] at found
      simp [Stmt.listings, Stmt.listing, effect] at found)
    (fun child member x found => by
      obtain ⟨entry, entered, does⟩ := (mem_ofList_iff_listings ledger.effect first body).mp
        ((gatheredFrom x).mp ⟨child, member, found⟩)
      exact (partly.around x).mpr (.inr (.inr ⟨entry, inside entry entered, does⟩)))
  refine ⟨g'', taken, kept,
    ⟨List.Subset.trans partly.keeps kept, partly.below, fun x => ?_, fun x => ?_,
      fun entry member x => ?_, ?_⟩⟩
  · rw [after, partly.around]
    simp [apart]
  · rw [after, partly.own, gatheredFrom]
    simp only [Effect.mem_ofList, List.mem_append, true_and, or_and_right, exists_or, or_assoc]
  · rw [after, partly.rows entry member]
    have other := (partly.below entry member).ne'
    simp [other]
  · intro row notOwner notLine notListed x
    rw [after, partly.others row notOwner notLine notListed]
    simp [notLine]

omit apart in
/-- When everything directly inside has been taken over, the statement is written. -/
theorem Partly.finish {s : Stmt}
    (partly : ledger.Partly owner line condition s.parts written g g')
    (listing : s.listing line = (line, s) :: written)
    (own : ledger.effect s = ledger.ofCondition condition)
    : ledger.Written owner (s.listing line) g g' := by
  rw [listing]
  refine ⟨partly.keeps, fun x => ?_, ?_, ?_⟩
  · rw [partly.around]
    simp [own]
  · rw [List.forall_mem_cons]
    refine ⟨fun x => ?_, partly.rows⟩
    rw [partly.own, Effect.mem_ofList, Effect.mem_ofList, ← own]
    simp only [List.mem_singleton, exists_eq_left]
    constructor
    · rintro (does | ⟨part, member, t, within, does⟩)
      · exact ⟨s, .refl, does⟩
      · exact ⟨t, Stmt.within_iff.mpr (.inr ⟨part, member, within⟩), does⟩
    · rintro ⟨t, within, does⟩
      rcases Stmt.within_iff.mp within with rfl | ⟨part, member, within⟩
      · exact .inl does
      · exact .inr ⟨part, member, t, within, does⟩
  · intro row notOwner notListed x
    rw [List.forall_mem_cons] at notListed
    exact partly.others row notOwner notListed.1 notListed.2 x

end Partly

end Ledger

end ProgramQuery

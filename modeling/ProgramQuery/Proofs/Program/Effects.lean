import ProgramQuery.Proofs.Program.CallGraph
import ProgramQuery.Proofs.Program.Names

/-! What statements and procedures modify and use, by the shape of the program and by the tables. The
tables are filled in passes that read what earlier passes wrote; they hold exactly the relations that
the program's shape and calls define.
-/

open Relation (ReflTransGen TransGen)

namespace ProgramQuery

open Text

/-- The statement is an assignment to the variable. -/
def Stmt.Assigns (s : Stmt) (v : String) : Prop :=
  ∃ value, s = .assign v value

/-- The variable occurs on the right of the assignment, or it controls the loop or conditional. -/
def Stmt.Reads (s : Stmt) (v : String) : Prop :=
  (∃ target value, s = .assign target value ∧ v ∈ value.names)
  ∨ (∃ body, s = .loop v body)
  ∨ ∃ thenBody elseBody, s = .branch v thenBody elseBody

/-- Some statement of a procedure does something to a variable by itself, and that procedure has the
given name or is reached from it through calls. -/
def Program.ProcedureTouches (p : Program) (own : Stmt → String → Prop) (name v : String) : Prop :=
  ∃ procedure ∈ p.procedures, ReflTransGen p.Calls name procedure.name
    ∧ ∃ s ∈ procedure.body, ∃ t, Stmt.Within t s ∧ own t v

/-- A statement does something to a variable by itself, through a statement inside it, or through the
procedure that it calls. -/
inductive Program.Touches (p : Program) (own : Stmt → String → Prop) : Stmt → String → Prop
  | own {s : Stmt} {v : String} (does : own s v) : p.Touches own s v
  | inside {inner outer : Stmt} {v : String} (nested : Stmt.Inside inner outer)
    (does : p.Touches own inner v)
    : p.Touches own outer v
  | call {callee v : String} (does : p.ProcedureTouches own callee v)
    : p.Touches own (.call callee) v

variable {p : Program} {own : Stmt → String → Prop} {effect : Effect} {names : List String}
  {keeps : Stmt → Bool}

theorem Stmt.mem_ownModified (s : Stmt) (v : String) : v ∈ s.ownModified ↔ s.Assigns v := by
  cases s <;> simp [Stmt.ownModified, Stmt.Assigns, eq_comm]

theorem Stmt.mem_ownUsed (s : Stmt) (v : String) : v ∈ s.ownUsed ↔ s.Reads v := by
  cases s <;> simp [Stmt.ownUsed, Stmt.Reads, eq_comm]

/-- Only procedures of the program have effects, since a name without a procedure calls nothing. -/
theorem Program.ProcedureTouches.declared {name v : String} (does : p.ProcedureTouches own name v)
    : ∃ procedure ∈ p.procedures, procedure.name = name := by
  obtain ⟨procedure, member, path, _⟩ := does
  rcases ReflTransGen.cases_head path with same | ⟨next, calls, _⟩
  · exact ⟨procedure, member, same.symm⟩
  · obtain ⟨caller, member, name, _⟩ := calls
    exact ⟨caller, member, name⟩

/-- A procedure takes over the effects of what it reaches. -/
theorem Program.ProcedureTouches.of_reached {name other v : String}
    (path : ReflTransGen p.Calls name other) (does : p.ProcedureTouches own other v)
    : p.ProcedureTouches own name v := by
  obtain ⟨procedure, member, further, inside⟩ := does
  exact ⟨procedure, member, path.trans further, inside⟩

theorem Program.Touches.of_within {inner outer : Stmt} {v : String}
    (within : Stmt.Within inner outer) (does : p.Touches own inner v)
    : p.Touches own outer v := by
  rcases Stmt.within_iff_inside.mp within with rfl | nested
  · exact does
  · exact .inside nested does

/-- What a statement does comes down to statements within it and to the calls among them. -/
theorem Program.touches_iff {s : Stmt} {v : String}
    : p.Touches own s v
      ↔ (∃ t, Stmt.Within t s ∧ own t v)
        ∨ ∃ callee, Stmt.Within (.call callee) s ∧ p.ProcedureTouches own callee v := by
  constructor
  · intro does
    induction does with
    | own does => exact Or.inl ⟨_, .refl, does⟩
    | inside nested _ ih =>
      have within := nested.to_reflTransGen
      rcases ih with ⟨t, inner, does⟩ | ⟨callee, inner, does⟩
      · exact Or.inl ⟨t, inner.trans within, does⟩
      · exact Or.inr ⟨callee, inner.trans within, does⟩
    | call does => exact Or.inr ⟨_, .refl, does⟩
  · rintro (⟨t, within, does⟩ | ⟨callee, within, does⟩)
    · exact .of_within within (.own does)
    · exact .of_within within (.call does)

theorem Effect.mem_ofList {statements : List Stmt} {v : String}
    : v ∈ effect.ofList statements
      ↔ ∃ s ∈ statements, ∃ t, Stmt.Within t s ∧ v ∈ effect t := by
  simp only [Effect.ofList, List.mem_eraseDups, List.mem_flatMap, Prod.exists]
  constructor
  · rintro ⟨n, t, member, does⟩
    obtain ⟨s, inList, within⟩ := (Stmt.mem_listings_iff_within 1 statements t).mp ⟨n, member⟩
    exact ⟨s, inList, t, within, does⟩
  · rintro ⟨s, inList, t, within, does⟩
    obtain ⟨n, member⟩ := (Stmt.mem_listings_iff_within 1 statements t).mpr ⟨s, inList, within⟩
    exact ⟨n, t, member, does⟩

theorem Effect.mem_ofName {name v : String}
    : v ∈ effect.ofName p name
      ↔ ∃ procedure ∈ p.procedures, procedure.name = name
        ∧ ∃ s ∈ procedure.body, ∃ t, Stmt.Within t s ∧ v ∈ effect t := by
  simp only [Effect.ofName, Effect.mem_ofList, List.mem_flatMap, List.mem_filter, beq_iff_eq]
  constructor
  · rintro ⟨s, ⟨procedure, ⟨declared, named⟩, inBody⟩, inside⟩
    exact ⟨procedure, declared, named, s, inBody, inside⟩
  · rintro ⟨procedure, declared, named, s, inBody, inside⟩
    exact ⟨s, ⟨procedure, ⟨declared, named⟩, inBody⟩, inside⟩

/-- What a procedure does is what the procedures it reaches do without calls. -/
theorem Program.procedureTouches_iff (agrees : ∀ s v, v ∈ effect s ↔ own s v) {name v : String}
    : p.ProcedureTouches own name v
      ↔ ∃ other, ReflTransGen p.Calls name other ∧ v ∈ effect.ofName p other := by
  simp only [Effect.mem_ofName, agrees]
  constructor
  · rintro ⟨procedure, declared, path, inside⟩
    exact ⟨_, path, procedure, declared, rfl, inside⟩
  · rintro ⟨other, path, procedure, declared, rfl, inside⟩
    exact ⟨procedure, declared, path, inside⟩

def Effect.recorded (rows : Keyed (List String)) (name : String) : List String :=
  (rows.get? name).getD []

theorem Effect.recorded_put (rows : Keyed (List String)) (name other : String)
    (columns : List String)
    : Effect.recorded (rows.put name columns) other
      = if name = other then columns else Effect.recorded rows other := by
  simp only [Effect.recorded, Keyed.get?_put]
  split <;> rfl

theorem Effect.nodup_ofNames : (Keyed.keys (effect.ofNames p)).Nodup := by
  simpa [Keyed.keys, Effect.ofNames, Function.comp_def] using nodup_eraseDups _

theorem Effect.recorded_ofNames {name v : String}
    : v ∈ Effect.recorded (effect.ofNames p) name ↔ v ∈ effect.ofName p name := by
  by_cases declared : name ∈ p.procedures.map (·.name)
  · have entry : (name, effect.ofName p name) ∈ effect.ofNames p :=
      List.mem_map.mpr ⟨name, List.mem_eraseDups.mpr declared, rfl⟩
    rw [Effect.recorded, (Keyed.mem_iff_get? Effect.nodup_ofNames).mp entry, Option.getD_some]
  · have absent : (effect.ofNames p).get? name = none := by
      rw [← Option.not_isSome_iff_eq_none, ← Keyed.mem_keys_iff]
      simpa [Keyed.keys, Effect.ofNames, List.mem_eraseDups] using declared
    have nothing : v ∉ effect.ofName p name := by
      rw [Effect.mem_ofName]
      rintro ⟨procedure, member, named, _⟩
      exact declared (List.mem_map.mpr ⟨procedure, member, named⟩)
    simp [Effect.recorded, absent, nothing]

/-- What each procedure reaches can be listed, and is listed in some order. -/
def Program.Lists (p : Program) (called? : String → Option (List String)) : Prop :=
  ∀ name ∈ p.procedures.map (·.name), ∃ called, called? name = some called
    ∧ ∀ other, other ∈ called ↔ TransGen p.Calls name other

/-- What holds between the steps of the pass: every name has its own effects and nothing beyond what
it reaches. -/
structure Effect.Underway (effect : Effect) (p : Program) (rows : Keyed (List String)) : Prop where
  unique : (Keyed.keys rows).Nodup
  lower : ∀ name v, v ∈ effect.ofName p name → v ∈ Effect.recorded rows name
  upper : ∀ name v, v ∈ Effect.recorded rows name →
    ∃ other, ReflTransGen p.Calls name other ∧ v ∈ effect.ofName p other

def Effect.Complete (effect : Effect) (p : Program) (rows : Keyed (List String)) (name : String)
    : Prop :=
  ∀ v, (∃ other, ReflTransGen p.Calls name other ∧ v ∈ effect.ofName p other)
    → v ∈ Effect.recorded rows name

theorem Effect.Underway.ofNames : effect.Underway p (effect.ofNames p) where
  unique := Effect.nodup_ofNames
  lower := fun _ _ does => Effect.recorded_ofNames.mpr does
  upper := fun name _ does => ⟨name, .refl, Effect.recorded_ofNames.mp does⟩

/-- One step of the pass completes the name it is about and keeps all others. It reads rows that
earlier steps may have enlarged, which the bounds of the invariant allow. -/
theorem Effect.Underway.step {rows : Keyed (List String)} {name : String} {called : List String}
    (underway : effect.Underway p rows)
    (reached : ∀ other, other ∈ called ↔ TransGen p.Calls name other)
    : let columns := (name :: called).flatMap fun other => Effect.recorded rows other
      effect.Underway p (rows.put name columns.eraseDups)
      ∧ effect.Complete p (rows.put name columns.eraseDups) name
      ∧ ∀ other, effect.Complete p rows other
          → effect.Complete p (rows.put name columns.eraseDups) other := by
  intro columns
  have mem_columns {v : String}
      : v ∈ columns.eraseDups
        ↔ ∃ other, ReflTransGen p.Calls name other ∧ v ∈ Effect.recorded rows other := by
    simp only [columns, List.mem_eraseDups, List.mem_flatMap, List.mem_cons, reached,
      Relation.reflTransGen_iff_eq_or_transGen]
  have complete : effect.Complete p (rows.put name columns.eraseDups) name := by
    rintro v ⟨other, path, does⟩
    rw [Effect.recorded_put, if_pos rfl]
    exact mem_columns.mpr ⟨other, path, underway.lower other v does⟩
  refine ⟨⟨Keyed.nodup_keys_put underway.unique, ?_, ?_⟩, complete, ?_⟩
  · intro other v does
    by_cases same : name = other
    · subst same
      exact complete v ⟨name, .refl, does⟩
    · rw [Effect.recorded_put, if_neg same]
      exact underway.lower other v does
  · intro other v does
    rw [Effect.recorded_put] at does
    split at does
    · next same =>
      subst same
      obtain ⟨middle, path, does⟩ := mem_columns.mp does
      obtain ⟨last, further, does⟩ := underway.upper middle v does
      exact ⟨last, path.trans further, does⟩
    · exact underway.upper other v does
  · intro other before v does
    by_cases same : name = other
    · subst same
      exact complete v does
    · rw [Effect.recorded_put, if_neg same]
      exact before v does

/-- The whole pass gets to its end, keeps the invariant and completes every name it goes through. -/
theorem Effect.Underway.takeOver {called? : String → Option (List String)}
    (lists : ∀ name ∈ names, ∃ called, called? name = some called
      ∧ ∀ other, other ∈ called ↔ TransGen p.Calls name other)
    {rows : Keyed (List String)} (underway : effect.Underway p rows)
    : ∃ rows', Effect.takeOver called? names rows = some rows'
      ∧ effect.Underway p rows'
      ∧ (∀ name ∈ names, effect.Complete p rows' name)
      ∧ ∀ name, effect.Complete p rows name → effect.Complete p rows' name := by
  induction names generalizing rows with
  | nil => exact ⟨rows, rfl, underway, by simp, fun _ complete => complete⟩
  | cons name rest ih =>
    obtain ⟨called, found, reached⟩ := lists name (by simp)
    obtain ⟨next, complete, keeps⟩ := underway.step reached
    obtain ⟨rows', done, last, all, keepsAll⟩ :=
      ih (fun other member => lists other (List.mem_cons_of_mem name member)) next
    refine ⟨rows', ?_, last, ?_, fun other before => keepsAll other (keeps other before)⟩
    · simp only [Effect.takeOver, found, Option.bind_eq_bind, Option.bind_some]
      exact done
    · intro other member
      rcases List.mem_cons.mp member with rfl | member
      · exact keepsAll other complete
      · exact all other member

/-- After the pass exactly what a name reaches is recorded under it. -/
theorem Effect.exists_takeOver {called? : String → Option (List String)}
    (agrees : ∀ s v, v ∈ effect s ↔ own s v) (lists : p.Lists called?)
    : ∃ rows, Effect.takeOver called? (p.procedures.map (·.name)) (effect.ofNames p) = some rows
      ∧ (Keyed.keys rows).Nodup
      ∧ ∀ name v, v ∈ Effect.recorded rows name ↔ p.ProcedureTouches own name v := by
  obtain ⟨rows, done, underway, complete, _⟩ := Effect.Underway.ofNames.takeOver lists
  refine ⟨rows, done, underway.unique, fun name v => ⟨fun does => ?_, fun does => ?_⟩⟩
  · exact (Program.procedureTouches_iff agrees).mpr (underway.upper name v does)
  · obtain ⟨procedure, member, named⟩ := does.declared
    exact complete name (List.mem_map.mpr ⟨procedure, member, named⟩) v
      ((Program.procedureTouches_iff agrees).mp does)

/-- The pass stops at a procedure whose calls never end. -/
theorem Effect.ends_of_takeOver {called? : String → Option (List String)}
    {rows rows' : Keyed (List String)} (done : Effect.takeOver called? names rows = some rows')
    : ∀ name ∈ names, ∃ called, called? name = some called := by
  induction names generalizing rows with
  | nil => simp
  | cons name rest ih =>
    simp only [Effect.takeOver, Option.bind_eq_bind, Option.bind_eq_some_iff] at done
    obtain ⟨called, found, done⟩ := done
    intro other member
    rcases List.mem_cons.mp member with rfl | member
    · exact ⟨called, found⟩
    · exact ih done other member

theorem Effect.mem_ofStmt {rows : Keyed (List String)} {s : Stmt} {v : String}
    : v ∈ effect.ofStmt rows s
      ↔ (∃ t, Stmt.Within t s ∧ v ∈ effect t)
        ∨ ∃ callee, Stmt.Within (.call callee) s ∧ v ∈ Effect.recorded rows callee := by
  simp only [Effect.ofStmt, List.mem_eraseDups, List.mem_append, Effect.mem_ofList,
    List.mem_flatMap, Stmt.mem_calleesOf, List.mem_singleton, exists_eq_left, Effect.recorded]

/-- A table of an effect: which cells and which rows are there. -/
structure Program.EffectGrid (p : Program) (own : Stmt → String → Prop) (keeps : Stmt → Bool)
    (table : Grid Int)
    : Prop where
  orderly : table.Orderly
  marks : table.Marks
  cells : ∀ row v, v ∈ table.columnsOf row
    ↔ p.ProcedureTouches own row v
      ∨ ∃ line s, (line, s) ∈ p.listing ∧ showInt line = row ∧ p.Touches own s v
  rows : ∀ row, row ∈ table.rowNames
    ↔ (∃ v, p.ProcedureTouches own row v)
      ∨ ∃ line s, (line, s) ∈ p.listing ∧ showInt line = row
        ∧ (keeps s = true ∨ ∃ v, p.Touches own s v)

private theorem ne_nil_iff {l : List String} : l ≠ [] ↔ ∃ v, v ∈ l := by
  rw [List.ne_nil_iff_exists_cons]
  constructor
  · rintro ⟨v, rest, rfl⟩
    exact ⟨v, by simp⟩
  · rintro ⟨v, member⟩
    cases l with
    | nil => cases member
    | cons w rest => exact ⟨w, rest, rfl⟩

/-- The table of an effect is there and holds the relation, whatever the order in which the
procedures reached by calls are listed. -/
theorem Program.exists_effectGrid {called? : String → Option (List String)} (keeps : Stmt → Bool)
    (agrees : ∀ s v, v ∈ effect s ↔ own s v) (lists : p.Lists called?)
    : ∃ table, p.effectGrid? called? effect keeps = some table ∧ p.EffectGrid own keeps table := by
  obtain ⟨procedures, done, unique, recorded⟩ := Effect.exists_takeOver agrees lists
  refine ⟨_, by simp only [Program.effectGrid?, done, Option.bind_eq_bind, Option.bind_some]; rfl, ?_⟩
  have touches {s : Stmt} {v : String}
      : v ∈ effect.ofStmt procedures s ↔ p.Touches own s v := by
    rw [Effect.mem_ofStmt, Program.touches_iff]
    simp only [agrees, recorded]
  have entries {row v : String}
      : (∃ entry ∈ procedures, entry.1 = row ∧ v ∈ entry.2) ↔ p.ProcedureTouches own row v := by
    rw [← recorded, Effect.recorded]
    constructor
    · rintro ⟨⟨name, columns⟩, member, rfl, does⟩
      rw [(Keyed.mem_iff_get? unique).mp member]
      exact does
    · intro does
      cases found : procedures.get? row with
      | none => simp [found] at does
      | some columns =>
        refine ⟨(row, columns), (Keyed.mem_iff_get? unique).mpr found, rfl, ?_⟩
        simpa [found] using does
  -- both folds write rows, the first one without keeping empty ones
  change p.EffectGrid own keeps
    (p.listing.foldl (Grid.write (fun entry => keeps entry.2) (fun entry => showInt entry.1)
        fun entry => effect.ofStmt procedures entry.2)
      (procedures.foldl (Grid.write (fun _ => false) (fun entry => entry.1) fun entry => entry.2)
        .empty))
  refine ⟨.foldl_write _ _ _ _ (.foldl_write _ _ _ _ .empty),
    .foldl_write _ _ _ _ (.foldl_write _ _ _ _ .empty), ?_, ?_⟩
  · intro row v
    rw [Grid.mem_columnsOf_foldl_write, Grid.mem_columnsOf_foldl_write, entries, or_comm]
    simp only [Grid.not_mem_columnsOf_empty, or_false, Prod.exists, touches]
  · intro row
    rw [Grid.mem_rowNames_foldl_write, Grid.mem_rowNames_foldl_write, or_comm]
    simp only [Grid.not_mem_rowNames_empty, or_false, Prod.exists, touches, ne_nil_iff,
      Bool.false_eq_true, false_or]
    refine or_congr ?_ Iff.rfl
    constructor
    · rintro ⟨name, columns, member, rfl, v, does⟩
      exact ⟨v, entries.mp ⟨(name, columns), member, rfl, does⟩⟩
    · rintro ⟨v, does⟩
      obtain ⟨⟨name, columns⟩, member, rfl, inColumns⟩ := entries.mpr does
      exact ⟨name, columns, member, rfl, v, inColumns⟩

/-- What procedures reach can be listed unless one of them gets into a cycle of calls. -/
theorem Program.lists_called?_iff
    : p.Lists p.callGrid.called?
      ↔ ∀ name ∈ p.procedures.map (·.name), ¬ p.callGrid.Endless name := by
  constructor
  · intro lists name declared
    obtain ⟨called, found, _⟩ := lists name declared
    exact Grid.not_endless_of_calledWithin found
  · intro ends name declared
    have listed : p.callGrid.called? name ≠ none := fun stuck =>
      ends name declared (Grid.called?_eq_none_iff.mp stuck)
    obtain ⟨called, found⟩ := Option.ne_none_iff_exists'.mp listed
    exact ⟨called, found, (Program.called?_exact found).2⟩

theorem Program.lists_of_effectGrid {table : Grid Int}
    (filled : p.effectGrid? p.callGrid.called? effect keeps = some table)
    : p.Lists p.callGrid.called? := by
  simp only [Program.effectGrid?, Option.bind_eq_bind, Option.bind_eq_some_iff] at filled
  obtain ⟨rows, done, _⟩ := filled
  intro name declared
  obtain ⟨called, found⟩ := Effect.ends_of_takeOver done name declared
  exact ⟨called, found, (Program.called?_exact found).2⟩

/-- Something is recorded of a program if what its procedures reach can be listed, and then both
tables hold their relations. -/
theorem KnowledgeBase.ofProgram?_eq_some {knowledge : KnowledgeBase}
    (known : KnowledgeBase.ofProgram? p = some knowledge)
    : p.Lists p.callGrid.called?
      ∧ p.EffectGrid Stmt.Assigns Stmt.isContainer knowledge.modifies
      ∧ p.EffectGrid Stmt.Reads (fun _ => false) knowledge.uses := by
  have describes := KnowledgeBase.describes_of_ofProgram? known
  have lists := Program.lists_of_effectGrid describes.uses
  obtain ⟨table, filled, modifiesExact⟩ :=
    Program.exists_effectGrid Stmt.isContainer Stmt.mem_ownModified lists
  obtain rfl := Option.some.inj (describes.modifies.symm.trans filled)
  obtain ⟨table, filled, usesExact⟩ :=
    Program.exists_effectGrid (fun _ => false) Stmt.mem_ownUsed lists
  obtain rfl := Option.some.inj (describes.uses.symm.trans filled)
  exact ⟨lists, modifiesExact, usesExact⟩

theorem KnowledgeBase.exists_ofProgram? (lists : p.Lists p.callGrid.called?)
    : ∃ knowledge, KnowledgeBase.ofProgram? p = some knowledge := by
  obtain ⟨modifies, modifiesFilled, _⟩ :=
    Program.exists_effectGrid Stmt.isContainer Stmt.mem_ownModified lists
  obtain ⟨uses, usesFilled, _⟩ :=
    Program.exists_effectGrid (fun _ => false) Stmt.mem_ownUsed lists
  refine ⟨?_, ?_⟩
  rotate_left
  · simp only [KnowledgeBase.ofProgram?, Program.uses?, Program.modifies?, usesFilled,
      modifiesFilled, Option.bind_eq_bind, Option.bind_some]
    rfl

section Order

variable {p' : Program} (same : p'.procedures.Perm p.procedures)
include same

theorem Program.calls_of_perm : p'.Calls = p.Calls := by
  funext caller callee
  simp only [Program.Calls, same.mem_iff]

theorem Program.procedureTouches_of_perm : p'.ProcedureTouches own = p.ProcedureTouches own := by
  funext name v
  simp only [Program.ProcedureTouches, same.mem_iff, Program.calls_of_perm same]

theorem Program.touches_of_perm : p'.Touches own = p.Touches own := by
  funext s v
  rw [eq_iff_iff, Program.touches_iff, Program.touches_iff, Program.procedureTouches_of_perm same]

theorem Program.lists_of_perm (lists : p.Lists p.callGrid.called?)
    : p'.Lists p'.callGrid.called? := by
  rw [Program.lists_called?_iff] at lists ⊢
  intro name declared
  have ends := lists name ((same.map _).mem_iff.mp declared)
  rwa [Grid.Endless, Program.leads_callGrid, Program.calls_of_perm same,
    ← Program.leads_callGrid, ← Grid.Endless]

end Order

/-- A table says of each statement and each procedure which variables it does something to, and says
nothing else. -/
structure Program.Records (p : Program) (own : Stmt → String → Prop) (table : Grid Int) : Prop where
  statement : ∀ line s, (line, s) ∈ p.listing → ∀ v,
    v ∈ table.columnsOf (showInt line) ↔ p.Touches own s v
  procedure : ∀ procedure ∈ p.procedures, ∀ v,
    v ∈ table.columnsOf procedure.name ↔ p.ProcedureTouches own procedure.name v
  nothingElse : ∀ row v, v ∈ table.columnsOf row →
    (∃ line s, (line, s) ∈ p.listing ∧ row = showInt line)
      ∨ ∃ procedure ∈ p.procedures, row = procedure.name

/-- Two tables agree on each procedure by its name, and on the statements of a procedure by their
places in it, wherever the procedure stands in its program. -/
structure Program.SameRecords (p p' : Program) (table table' : Grid Int) : Prop where
  procedure : ∀ procedure ∈ p.procedures, ∀ v,
    v ∈ table'.columnsOf procedure.name ↔ v ∈ table.columnsOf procedure.name
  statement : ∀ start start' procedure, (start, procedure) ∈ p.numbered →
    (start', procedure) ∈ p'.numbered → ∀ place < Stmt.sizes procedure.body, ∀ v,
      v ∈ table'.columnsOf (showInt (start' + place : Nat))
        ↔ v ∈ table.columnsOf (showInt (start + place : Nat))

/-- In a program with proper names no row is both that of a statement and that of a procedure. -/
theorem Program.EffectGrid.records {table : Grid Int}
    (exact_ : p.EffectGrid own keeps table) (named : p.Named)
    : p.Records own table where
  statement := by
    intro line s listed v
    rw [exact_.cells]
    constructor
    · rintro (does | ⟨line', s', listed', sameRow, does⟩)
      · obtain ⟨procedure, declared, name⟩ := does.declared
        exact absurd name (isName_ne_showInt (named procedure declared).name line)
      · obtain rfl : line' = line := by simpa using sameRow
        rwa [Program.listing_unique listed listed']
    · intro does
      exact Or.inr ⟨line, s, listed, rfl, does⟩
  procedure := by
    intro procedure declared v
    rw [exact_.cells]
    constructor
    · rintro (does | ⟨line, s, _, sameRow, _⟩)
      · exact does
      · exact absurd sameRow.symm (isName_ne_showInt (named procedure declared).name line)
    · exact Or.inl
  nothingElse := by
    intro row v member
    rcases (exact_.cells row v).mp member with does | ⟨line, s, listed, sameRow, _⟩
    · obtain ⟨procedure, declared, name⟩ := does.declared
      exact Or.inr ⟨procedure, declared, name.symm⟩
    · exact Or.inl ⟨line, s, listed, sameRow.symm⟩

theorem Program.Records.sameRecords {p' : Program} {table table' : Grid Int}
    (same : p'.procedures.Perm p.procedures) (records : p.Records own table)
    (records' : p'.Records own table')
    : p.SameRecords p' table table' where
  procedure := by
    intro procedure declared v
    rw [records.procedure procedure declared,
      records'.procedure procedure (same.mem_iff.mpr declared),
      Program.procedureTouches_of_perm same]
  statement := by
    intro start start' procedure entry entry' place inside v
    obtain ⟨s, inBody⟩ : ∃ s, (start + place, s) ∈ Stmt.listings start procedure.body :=
      Stmt.exists_mem_listings_iff.mpr (by omega)
    have listed : (start + place, s) ∈ p.listing := List.mem_flatMap.mpr ⟨_, entry, inBody⟩
    have listed' : (start' + place, s) ∈ p'.listing :=
      List.mem_flatMap.mpr ⟨_, entry', Stmt.mem_listings_place inBody⟩
    rw [records.statement _ s listed, records'.statement _ s listed', Program.touches_of_perm same]

/-- The tables of an accepted text hold what its statements and procedures modify and use. They stay
the same if the procedures stand in another order, and also if the procedures that a procedure reaches
are listed in another order, with or without repetitions. -/
theorem Analysis.effects_exact {text : String} {a : Analysis}
    (accepted : Analysis.ofText text = .ok a)
    : a.program.Records Stmt.Assigns a.knowledge.modifies
      ∧ a.program.Records Stmt.Reads a.knowledge.uses
      ∧ (∀ p' : Program, p'.procedures.Perm a.program.procedures →
          ∃ knowledge, KnowledgeBase.ofProgram? p' = some knowledge
            ∧ a.program.SameRecords p' a.knowledge.modifies knowledge.modifies
            ∧ a.program.SameRecords p' a.knowledge.uses knowledge.uses)
      ∧ ∀ called? : String → Option (List String),
          (∀ name called, a.program.callGrid.called? name = some called →
            ∃ called', called? name = some called' ∧ ∀ other, other ∈ called' ↔ other ∈ called) →
          ∃ modifies uses,
            a.program.effectGrid? called? Stmt.ownModified Stmt.isContainer = some modifies
            ∧ a.program.effectGrid? called? Stmt.ownUsed (fun _ => false) = some uses
            ∧ ∀ row v,
                (v ∈ modifies.columnsOf row ↔ v ∈ a.knowledge.modifies.columnsOf row)
                ∧ (v ∈ uses.columnsOf row ↔ v ∈ a.knowledge.uses.columnsOf row) := by
  have named := Analysis.named accepted
  obtain ⟨lists, modifies, uses⟩ :=
    KnowledgeBase.ofProgram?_eq_some (Analysis.ofText_eq_ok accepted).2
  refine ⟨modifies.records named, uses.records named, ?_, ?_⟩
  · intro p' same
    obtain ⟨knowledge, known⟩ :=
      KnowledgeBase.exists_ofProgram? (Program.lists_of_perm same lists)
    obtain ⟨_, modifies', uses'⟩ := KnowledgeBase.ofProgram?_eq_some known
    have named' : p'.Named := fun procedure declared =>
      named procedure (same.mem_iff.mp declared)
    exact ⟨knowledge, known, (modifies.records named).sameRecords same (modifies'.records named'),
      (uses.records named).sameRecords same (uses'.records named')⟩
  · intro called? relisted
    have lists' : a.program.Lists called? := by
      intro name declared
      obtain ⟨called, found, reached⟩ := lists name declared
      obtain ⟨called', found', members⟩ := relisted name called found
      exact ⟨called', found', fun other => (members other).trans (reached other)⟩
    obtain ⟨table, filled, exact_⟩ :=
      Program.exists_effectGrid Stmt.isContainer Stmt.mem_ownModified lists'
    obtain ⟨table', filled', exact'⟩ :=
      Program.exists_effectGrid (fun _ => false) Stmt.mem_ownUsed lists'
    refine ⟨table, table', filled, filled', fun row v => ⟨?_, ?_⟩⟩
    · rw [exact_.cells, modifies.cells]
    · rw [exact'.cells, uses.cells]

set_option maxRecDepth 10000 in
/-- A loop around a call of a procedure that comes later in the text and calls a third one. -/
theorem Analysis.effects_exact_forward_calls
    : ∃ a, Analysis.ofText "procedure A \x7b while i \x7b call B; \x7d \x7d
          procedure B \x7b if y then \x7b u = v; \x7d else \x7b call C; \x7d \x7d
          procedure C \x7b x = z * 2; \x7d" = .ok a
      ∧ (∃ s, (1, s) ∈ a.program.listing ∧ a.program.Touches Stmt.Assigns s "x")
      ∧ a.program.ProcedureTouches Stmt.Reads "A" "z"
      ∧ ¬ a.program.ProcedureTouches Stmt.Assigns "C" "u" := by
  refine exists_ok_of (fun a => a.program.listing.any (·.1 == 1)
      && ["A", "C"].all (a.program.procedures.map (·.name)).contains
      && (a.knowledge.modifies.columnsOf (showInt (1 : Nat))).contains "x"
      && (a.knowledge.uses.columnsOf "A").contains "z"
      && !(a.knowledge.modifies.columnsOf "C").contains "u")
    (by decide +kernel) fun a source evaluated => ?_
  obtain ⟨modifies, uses, _⟩ := Analysis.effects_exact source
  simp only [Bool.and_eq_true, Bool.not_eq_true', List.any_eq_true, beq_iff_eq, List.all_eq_true,
    List.mem_map, List.contains_eq_mem, decide_eq_true_eq,
    decide_eq_false_iff_not] at evaluated
  obtain ⟨⟨⟨⟨⟨⟨_, s⟩, listed, rfl⟩, declared⟩, assigned⟩, read⟩, spared⟩ := evaluated
  obtain ⟨first, member, name⟩ := declared "A" (by simp)
  obtain ⟨last, member', name'⟩ := declared "C" (by simp)
  refine ⟨⟨s, listed, (modifies.statement 1 s listed "x").mp assigned⟩, ?_, ?_⟩
  · have touches := uses.procedure first member "z"
    rw [name] at touches
    exact touches.mp read
  · have touches := modifies.procedure last member' "u"
    rw [name'] at touches
    exact mt touches.mpr spared

end ProgramQuery

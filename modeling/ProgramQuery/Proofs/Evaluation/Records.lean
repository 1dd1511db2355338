import ProgramQuery.Proofs.Evaluation.Sheets

/-! Everything that was ever recorded for a synonym counts. An outcome may be written over when its
condition is worked out again, but the values left are then already among it, so nothing comes back.
-/

namespace ProgramQuery.Sheet

/-- One entry on a sheet: a synonym gets its row, or the outcome of a condition is recorded for it. -/
inductive Entry where
  | declaring (synonym : String) (type : Datum)
  | recording (condition synonym : String) (values : EntitySet)

namespace Entry

def synonym : Entry → String
  | declaring x _ => x
  | recording _ x _ => x

def run : Entry → EStateM Fault Sheet Unit
  | declaring x type => modify (·.declare x type)
  | recording condition x values => narrow condition x (.set values)

def leaves (entry : Entry) (s : Sheet) : Sheet :=
  match entry.run s with
  | .ok _ s' => s'
  | .error _ s' => s'

def fails (entry : Entry) (s : Sheet) : Bool :=
  match entry.run s with
  | .ok _ _ => false
  | .error _ _ => true

def passed? (x : String) : Entry → Option EntitySet
  | declaring _ _ => none
  | recording _ y values => if y = x then some values else none

end Entry

/-- The sheet after some entries, of which the first is the latest. -/
def entered : List Entry → Sheet
  | [] => start
  | entry :: before => entry.leaves (entered before)

def passed (x : String) (entries : List Entry) : List EntitySet :=
  entries.filterMap (Entry.passed? x)

/-- Outcomes are recorded under the names of conditions, for synonyms that have got their row. -/
def InOrder : List Entry → Prop
  | [] => True
  | .declaring _ _ :: before => InOrder before
  | .recording condition x _ :: before =>
    (condition ≠ typeColumn ∧ condition ≠ finalColumn) ∧ (x ≠ truthRow ∧ x ≠ fixedRow)
      ∧ (∃ type, .declaring x type ∈ before) ∧ InOrder before

def Agreed (x : String) (entries : List Entry) (e : Entity) : Prop :=
  ∀ values ∈ passed x entries, e ∈ values.members

variable {s : Sheet} {entries : List Entry} {x y condition column : String} {type : Datum}
  {values : EntitySet} {e : Entity}

/-- The values left to a synonym are what all sets recorded for it hold, and these are in every set
that is still on the sheet. -/
structure Retains (s : Sheet) (x : String) (entries : List Entry) : Prop where
  none : passed x entries = [] → s.final? x = none
  final : passed x entries ≠ [] → ∃ final, s.final? x = some (.set final)
    ∧ ∀ e, e ∈ final.members ↔ Agreed x entries e
  stored : ∀ column set, s.cells.cell? x column = some (.set set) →
    passed x entries ≠ [] ∧ ∀ e, Agreed x entries e → e ∈ set.members

theorem passed_recording_self
    : passed x (.recording condition x values :: entries) = values :: passed x entries := by
  simp [passed, Entry.passed?]

theorem passed_recording_other (differs : y ≠ x)
    : passed y (.recording condition x values :: entries) = passed y entries := by
  simp [passed, Entry.passed?, differs.symm]

theorem agreed_recording_self
    : Agreed x (.recording condition x values :: entries) e ↔ e ∈ values.members ∧ Agreed x entries e := by
  simp [Agreed, passed_recording_self]

/-- Of the sets in a row, the values left say all that a new outcome has to agree with. -/
theorem Retains.mem_leftover (keeps : s.Retains x entries) (orderly : s.cells.Orderly)
    (row : x ∈ s.cells.rowNames) (notFinal : condition ≠ finalColumn)
    : e ∈ (s.leftover condition x values).members
      ↔ Agreed x (.recording condition x values :: entries) e := by
  rw [Sheet.mem_leftover orderly row, agreed_recording_self]
  refine and_congr_right fun _ => ⟨fun all => ?_, fun agreed column set _ read => ?_⟩
  · by_cases nothing : passed x entries = []
    · simp [Agreed, nothing]
    · obtain ⟨final, found, exact_⟩ := keeps.final nothing
      exact (exact_ e).mp (all finalColumn final notFinal.symm found)
  · exact (keeps.stored column set read).2 e agreed

theorem Retains.recording (keeps : s.Retains x entries) (orderly : s.cells.Orderly)
    (row : x ∈ s.cells.rowNames) (notFinal : condition ≠ finalColumn) (notTruth : x ≠ truthRow)
    : (s.narrowed condition x values).Retains x (.recording condition x values :: entries) := by
  have some_ : passed x (.recording condition x values :: entries) ≠ [] := by
    simp [passed_recording_self]
  have left (e : Entity) : e ∈ (s.leftover condition x values).members ↔ _ :=
    keeps.mem_leftover orderly row notFinal
  refine ⟨fun nothing => absurd nothing some_, fun _ => ⟨s.leftover condition x values, ?_, left⟩,
    fun column set read => ⟨some_, fun e agreed => ?_⟩⟩
  · rw [final?, cell?_narrowed notTruth, if_pos ⟨rfl, rfl⟩]
  · rw [cell?_narrowed notTruth] at read
    split at read
    · cases read
      exact (left e).mpr agreed
    · split at read
      · cases read
        exact (agreed_recording_self.mp agreed).1
      · exact (keeps.stored column set read).2 e (agreed_recording_self.mp agreed).2

/-- A synonym keeps what it has where the same sets are recorded for it and still stand. -/
theorem Retains.of_same {s' : Sheet} {entries' : List Entry} (keeps : s.Retains x entries)
    (sets : passed x entries' = passed x entries) (final : s'.final? x = s.final? x)
    (cells : ∀ column set, s'.cells.cell? x column = some (.set set) →
      s.cells.cell? x column = some (.set set))
    : s'.Retains x entries' := by
  have agreed (e : Entity) : Agreed x entries' e ↔ Agreed x entries e := by simp [Agreed, sets]
  refine ⟨fun nothing => final.trans (keeps.none (sets ▸ nothing)), fun some_ => ?_,
    fun column set read => ?_⟩
  · obtain ⟨values, found, exact_⟩ := keeps.final (sets ▸ some_)
    exact ⟨values, final.trans found, fun e => (exact_ e).trans (agreed e).symm⟩
  · obtain ⟨some_, subset⟩ := keeps.stored column set (cells column set read)
    exact ⟨sets ▸ some_, fun e member => subset e ((agreed e).mp member)⟩

/-- A new row holds no sets. -/
theorem Retains.declaring (keeps : s.Retains x entries)
    : (s.declare y type).Retains x (.declaring y type :: entries) := by
  refine keeps.of_same rfl final?_declare fun column set read => ?_
  rw [cell?_declare] at read
  split at read
  · cases read
  · exact read

theorem row?_declare_other (differs : y ≠ x) : (s.declare x type).cells.row? y = s.cells.row? y := by
  unfold declare
  split
  · rfl
  · rw [Grid.row?_put, if_neg differs.symm]

theorem row?_narrowed_other (differs : y ≠ x) (notTruth : y ≠ truthRow)
    : (s.narrowed condition x values).cells.row? y = s.cells.row? y := by
  simp only [narrowed, judged, Grid.row?_put, differs.symm, notTruth.symm, if_false]

theorem leaves_recording (row : x ∈ s.cells.rowNames) (synonym : x ≠ fixedRow)
    : (Entry.recording condition x values).leaves s = s.narrowed condition x values
      ∧ (Entry.recording condition x values).fails s = values.isEmpty := by
  simp only [Entry.leaves, Entry.fails, Entry.run, narrow_set row synonym]
  cases values.isEmpty <;> exact ⟨rfl, rfl⟩

/-- What is known of the sheet at any time. -/
structure Logged (s : Sheet) (entries : List Entry) : Prop where
  orderly : s.cells.Orderly
  truth : truthRow ∈ s.cells.rowNames
  rows : ∀ x type, .declaring x type ∈ entries → x ∈ s.cells.rowNames
  keeps : ∀ x, x ≠ truthRow → s.Retains x entries

theorem Logged.declaring (logged : s.Logged entries)
    : (s.declare x type).Logged (.declaring x type :: entries) where
  orderly := by
    unfold declare
    split
    · exact logged.orderly
    · exact logged.orderly.put _ _ _
  truth := mem_rowNames_declare.mpr (.inr logged.truth)
  rows y type' member := by
    rw [mem_rowNames_declare]
    rcases List.mem_cons.mp member with same | member
    · cases same
      exact .inl rfl
    · exact .inr (logged.rows y type' member)
  keeps y notTruth := (logged.keeps y notTruth).declaring

theorem Logged.recording (logged : s.Logged entries) (row : x ∈ s.cells.rowNames)
    (notFinal : condition ≠ finalColumn) (notTruth : x ≠ truthRow)
    : (s.narrowed condition x values).Logged (.recording condition x values :: entries) where
  orderly := (((logged.orderly.put _ _ _).put _ _ _).put _ _ _).put _ _ _
  truth := (mem_rowNames_narrowed row logged.truth).mpr logged.truth
  rows y type member := by
    rw [mem_rowNames_narrowed row logged.truth]
    exact logged.rows y type (by simpa using member)
  keeps y notTruth' := by
    by_cases same : y = x
    · subst same
      exact (logged.keeps y notTruth).recording logged.orderly row notFinal notTruth
    · have cells (column : String)
          : (s.narrowed condition x values).cells.cell? y column = s.cells.cell? y column := by
        rw [Grid.cell?, row?_narrowed_other same notTruth', Grid.cell?]
      refine (logged.keeps y notTruth').of_same (passed_recording_other same) (cells _) ?_
      exact fun column set read => (cells column).symm.trans read

/-- The invariant holds after any entries that are made in order. -/
theorem logged_entered (ordered : InOrder entries) : (entered entries).Logged entries := by
  induction entries with
  | nil =>
    refine ⟨?_, by decide, nofun, fun x _ => ?_⟩
    · rw [entered, start]
      exact (Grid.Orderly.empty.addRow truthRow).addRow fixedRow
    · refine ⟨fun _ => cell?_start, fun some_ => absurd rfl some_, fun column set read => ?_⟩
      rw [entered, cell?_start] at read
      cases read
  | cons entry before ih =>
    cases entry with
    | declaring x type => exact (ih ordered).declaring
    | recording condition x values =>
      obtain ⟨⟨-, notFinal⟩, ⟨notTruth, notFixed⟩, ⟨type, declared⟩, ordered⟩ := ordered
      have logged := ih ordered
      have row := logged.rows x type declared
      rw [entered, (leaves_recording row notFixed).1]
      exact logged.recording row notFinal notTruth

/-- An entry touches its own row and that of the truth only, and it leaves no answer exactly if the set
recorded is empty. -/
theorem leaves_of_inOrder {entry : Entry} (ordered : InOrder (entry :: entries))
    : (entry.fails (entered entries) = true
        ↔ ∃ condition x values, entry = .recording condition x values ∧ values.members = [])
      ∧ ∀ y, y ≠ entry.synonym → y ≠ truthRow →
        (entered (entry :: entries)).cells.row? y = (entered entries).cells.row? y := by
  cases entry with
  | declaring x type => exact ⟨iff_of_false nofun (by simp), fun y differs _ => row?_declare_other differs⟩
  | recording condition x values =>
    obtain ⟨-, ⟨-, notFixed⟩, ⟨type, declared⟩, ordered⟩ := ordered
    have row := (logged_entered ordered).rows x type declared
    obtain ⟨leaves, fails⟩ := @leaves_recording _ x condition values row notFixed
    rw [entered, leaves, fails]
    refine ⟨?_, fun y differs notTruth => row?_narrowed_other differs notTruth⟩
    simp [EntitySet.isEmpty]

/-- The values left are the intersection of everything recorded. -/
theorem final_eq_intersection {entries : List Entry} (ordered : InOrder entries)
    : (∀ x, x ≠ truthRow → x ≠ fixedRow →
        (passed x entries = [] → (entered entries).final? x = none)
        ∧ (passed x entries ≠ [] → ∃ final, (entered entries).final? x = some (.set final)
          ∧ (∀ e, e ∈ final.members ↔ ∀ values ∈ passed x entries, e ∈ values.members)
          ∧ ∀ column stored, (entered entries).cells.cell? x column = some (.set stored) →
            ∀ e ∈ final.members, e ∈ stored.members))
      ∧ ∀ entry, InOrder (entry :: entries) →
        (entry.fails (entered entries) = true
          ↔ ∃ condition x values, entry = .recording condition x values ∧ values.members = [])
        ∧ (∀ y, y ≠ entry.synonym → y ≠ truthRow →
          (entered (entry :: entries)).cells.row? y = (entered entries).cells.row? y)
        ∧ ∀ x final, x ≠ truthRow → x ≠ fixedRow → (entered entries).final? x = some (.set final) →
          ∃ final', (entered (entry :: entries)).final? x = some (.set final')
            ∧ ∀ e ∈ final'.members, e ∈ final.members := by
  have logged := logged_entered ordered
  refine ⟨fun x notTruth _ => ?_, fun entry ordered' => ?_⟩
  · have keeps := logged.keeps x notTruth
    refine ⟨keeps.none, fun some_ => ?_⟩
    obtain ⟨final, found, exact_⟩ := keeps.final some_
    exact ⟨final, found, exact_, fun column stored read e member =>
      (keeps.stored column stored read).2 e ((exact_ e).mp member)⟩
  · obtain ⟨fails, others⟩ := leaves_of_inOrder ordered'
    refine ⟨fails, others, fun x final notTruth _ found => ?_⟩
    have more (values : EntitySet) (member : values ∈ passed x entries)
        : values ∈ passed x (entry :: entries) :=
      (List.sublist_cons_self entry entries).filterMap _ |>.subset member
    obtain ⟨some_, stored⟩ := (logged.keeps x notTruth).stored finalColumn final found
    obtain ⟨final', found', exact_⟩ := ((logged_entered ordered').keeps x notTruth).final
      fun nothing => some_ (List.eq_nil_iff_forall_not_mem.mpr fun values member =>
        List.ne_nil_of_mem (more values member) nothing)
    exact ⟨final', found', fun e member => stored e fun values recorded =>
      (exact_ e).mp member values (more values recorded)⟩

/-- A condition is worked out again, and what it allowed before still counts. -/
theorem final_eq_intersection_overwritten
    : ∃ entries, InOrder entries
      ∧ passed "s" entries = [⟨[.line 2, .line 4]⟩, ⟨[.line 1, .line 2]⟩]
      ∧ (entered entries).cells.cell? "s" "NEXT_s_t" = some (.set ⟨[.line 2, .line 4]⟩)
      ∧ ∃ final, (entered entries).final? "s" = some (.set final)
        ∧ ∀ e, e ∈ final.members ↔ ∀ values ∈ passed "s" entries, e ∈ values.members := by
  let entries : List Entry := [.recording "NEXT_s_t" "s" ⟨[.line 2, .line 4]⟩,
    .recording "NEXT_s_t" "s" ⟨[.line 1, .line 2]⟩, .declaring "s" (.text "STMT")]
  have declared : ∃ type, Entry.declaring "s" type ∈ [.declaring "s" (.text "STMT")] :=
    ⟨_, List.mem_singleton_self _⟩
  have ordered : InOrder entries := by
    refine ⟨by decide, by decide, ?_, by decide, by decide, declared, trivial⟩
    exact declared.imp fun _ => List.mem_cons_of_mem _
  have some_ : passed "s" entries ≠ [] := nofun
  obtain ⟨final, found, exact_, -⟩ :=
    ((final_eq_intersection ordered).1 "s" (by decide) (by decide)).2 some_
  exact ⟨entries, ordered, rfl, rfl, final, found, exact_⟩

end ProgramQuery.Sheet

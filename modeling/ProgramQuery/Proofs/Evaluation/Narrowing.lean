import ProgramQuery.Proofs.Evaluation.Runs

/-! Narrowing down a synonym keeps everything that can still meet all conditions. -/

namespace ProgramQuery.Evaluation

open Text

variable {p : Program} {kinds : String → Kind} {all done : List Condition} {s s' s'' : State}
  {subject : Subject} {c : Condition} {x y : String} {e : Entity}

/-- Conditions that can be evaluated together. -/
structure Regular (p : Program) (kinds : String → Kind) (all : List Condition) : Prop where
  spelled : ∀ c ∈ all, c.Spelled
  apart : ∀ c ∈ all, ∀ x, c.first = .synonym x → c.second ≠ .synonym x
  allowed : ∀ c ∈ all, c.relation.Allows (c.firstKind kinds) (c.secondKind kinds)
  lines : ∀ c ∈ all, ∀ n, c.first = .line n ∨ c.second = .line n → ∃ s, (n, s) ∈ p.listing

def Unsolvable (p : Program) (kinds : String → Kind) (all : List Condition) : Prop :=
  ¬ ∃ choice, Meets p kinds all choice

/-- The sheet is about the synonyms of the conditions, nothing but the conditions done so far is
recorded on it, and no choice that meets all conditions has been ruled out. -/
structure Inv (p : Program) (kinds : String → Kind) (all done : List Condition) (s : State)
    : Prop where
  sound : s.sheet.Sound p kinds
  rows : ∀ y ∈ s.sheet.cells.rowNames,
    y = Sheet.truthRow ∨ y = Sheet.fixedRow ∨ ∃ c ∈ all, y ∈ c.synonyms
  only : ∀ y column, column ∈ s.sheet.columns y →
    column = Sheet.typeColumn ∨ column = Sheet.finalColumn
      ∨ ∃ c ∈ done, c.title = column ∧ (isSynonym y = true → y ∈ c.synonyms)
  complete : ∀ choice, Meets p kinds all choice →
    ∀ c ∈ all, ∀ x ∈ c.synonyms, s.sheet.Left p kinds x (choice x)

def Recorded (done : List Condition) (s : State) : Prop :=
  ∀ c ∈ done, ∀ x ∈ c.synonyms, c.title ∈ s.sheet.columns x

/-- What a computation on the sheet only adds to. -/
structure Progress (p : Program) (kinds : String → Kind) (s s' : State) : Prop where
  pending : s'.pending = s.pending
  selected : s'.sheet.selected = s.sheet.selected
  rows : ∀ y, y ∈ s.sheet.cells.rowNames → y ∈ s'.sheet.cells.rowNames
  columns : ∀ y column, column ∈ s.sheet.columns y → column ∈ s'.sheet.columns y
  left : ∀ y e, isSynonym y = true → s'.sheet.Left p kinds y e → s.sheet.Left p kinds y e

theorem Progress.refl : Progress p kinds s s :=
  ⟨rfl, rfl, fun _ h => h, fun _ _ h => h, fun _ _ _ h => h⟩

theorem Progress.trans (first : Progress p kinds s s') (second : Progress p kinds s' s'')
    : Progress p kinds s s'' where
  pending := second.pending.trans first.pending
  selected := second.selected.trans first.selected
  rows y row := second.rows y (first.rows y row)
  columns y column member := second.columns y column (first.columns y column member)
  left y e synonym left := first.left y e synonym (second.left y e synonym left)

theorem Recorded.mono (recorded : Recorded done s) (progress : Progress p kinds s s')
    : Recorded done s' :=
  fun c member x synonym => progress.columns x _ (recorded c member x synonym)

theorem Inv.mono {more : List Condition} (inv : Inv p kinds all done s)
    (subset : ∀ c ∈ done, c ∈ more)
    : Inv p kinds all more s where
  sound := inv.sound
  rows := inv.rows
  only y column member := (inv.only y column member).imp_right <| Or.imp_right
    fun ⟨c, isDone, same⟩ => ⟨c, subset c isDone, same⟩
  complete := inv.complete

theorem Recorded.row (recorded : Recorded done s) (isDone : c ∈ done) (member : x ∈ c.synonyms)
    : x ∈ s.sheet.cells.rowNames :=
  Grid.mem_rowNames_of_mem_columnsOf (recorded c isDone x member)

/-- Recording values fails if there are none. -/
theorem ends_narrowTo {reason : Prop} {column : String} {values : List Entity}
    (row : x ∈ s.sheet.cells.rowNames) (synonym : x ≠ Sheet.fixedRow) (fails : values = [] → reason)
    : Ends subject reason s (narrowTo column x values) fun _ s' =>
        values ≠ [] ∧ s' = { s with sheet := s.sheet.narrowed column x (.ofList values) } := by
  rw [Ends, narrowTo, narrow, Sheet.narrow_set row synonym]
  cases values with
  | nil => exact fails rfl
  | cons e rest =>
    have some_ : (EntitySet.ofList (e :: rest)).isEmpty = false := by
      simp [EntitySet.isEmpty, EntitySet.ofList, List.eraseDups_cons]
    rw [some_]
    exact ⟨by simp, rfl⟩

section Narrow

variable (regular : Regular p kinds all) (inv : Inv p kinds all done s)

include regular inv in
/-- Narrowing a synonym of a condition to some values that any choice meeting all conditions is among. -/
theorem Inv.ends_narrowTo {values : List Entity} (member : c ∈ all) (isDone : c ∈ done)
    (occurs : x ∈ c.synonyms) (row : x ∈ s.sheet.cells.rowNames)
    (inside : ∀ e ∈ values, p.Fits (kinds x) e)
    (covers : ∀ choice, Meets p kinds all choice → choice x ∈ values)
    : Ends subject (Unsolvable p kinds all) s (narrowTo c.title x values) fun _ s' =>
        (∃ e, e ∈ values) ∧ Inv p kinds all done s' ∧ Progress p kinds s s'
        ∧ c.title ∈ s'.sheet.columns x ∧ ∀ y e, isSynonym y = true →
          (s'.sheet.Left p kinds y e ↔ s.sheet.Left p kinds y e ∧ (y = x → e ∈ values)) := by
  have synonym := regular.spelled c member x occurs
  have set_ : ∀ e, e ∈ (EntitySet.ofList values).members ↔ e ∈ values := by
    simp [EntitySet.ofList]
  have inside' : ∀ e ∈ (EntitySet.ofList values).members, p.Fits (kinds x) e :=
    fun e member => inside e ((set_ e).mp member)
  refine (Evaluation.ends_narrowTo row (synonym_ne_fixedRow synonym) ?_).mono ?_
  · -- no value is left, so no choice meets all conditions
    rintro rfl ⟨choice, meets⟩
    cases covers choice meets
  rintro - _ ⟨some_, rfl⟩
  have left (y : String) (e : Entity) (synonym' : isSynonym y = true)
      : (s.sheet.narrowed c.title x (.ofList values)).Left p kinds y e
        ↔ s.sheet.Left p kinds y e ∧ (y = x → e ∈ values) := by
    by_cases same : y = x
    · subst same
      rw [inv.sound.left_narrowed_self synonym row inside' c.title_ne_columns.2, set_]
      simp [and_comm]
    · rw [Sheet.left_narrowed_other synonym' same]
      simp [same]
  have columns (y column : String)
      : column ∈ (s.sheet.narrowed c.title x (.ofList values)).columns y
        ↔ ((y = x ∨ y = Sheet.truthRow) ∧ (column = c.title ∨ column = Sheet.finalColumn))
          ∨ column ∈ s.sheet.columns y := by
    simp only [Sheet.narrowed, Sheet.judged, Sheet.columns, Grid.mem_columnsOf_put]
    grind
  refine ⟨List.exists_mem_of_ne_nil _ some_, ⟨?_, ?_, ?_, ?_⟩, ⟨rfl, rfl, ?_, ?_, ?_⟩, ?_, left⟩
  · exact inv.sound.narrowed synonym row c.title_ne_columns (nodup_eraseDups values) inside'
  · intro y rows
    exact inv.rows y ((Sheet.mem_rowNames_narrowed row inv.sound.truth).mp rows)
  · intro y column recorded
    rcases (columns y column).mp recorded with ⟨place, same | same⟩ | recorded
    · refine .inr (.inr ⟨c, isDone, same.symm, fun synonym' => ?_⟩)
      rcases place with rfl | rfl
      · exact occurs
      · exact absurd rfl (synonym_ne_truthRow synonym')
    · exact .inr (.inl same)
    · exact inv.only y column recorded
  · intro choice meets c' member' y occurs'
    refine (left y _ (regular.spelled c' member' y occurs')).mpr ⟨?_, ?_⟩
    · exact inv.complete choice meets c' member' y occurs'
    · rintro rfl
      exact covers choice meets
  · exact fun y rows => (Sheet.mem_rowNames_narrowed row inv.sound.truth).mpr rows
  · exact fun y column recorded => (columns y column).mpr (.inr recorded)
  · exact fun y e synonym' member => ((left y e synonym').mp member).1
  · exact (columns x _).mpr (.inl ⟨.inl rfl, .inl rfl⟩)

/-- A change beside the synonyms that records nothing but conditions. -/
theorem Inv.of_sameSynonyms {cells : Grid Cell} (inv : Inv p kinds all done s)
    (regular : Regular p kinds all)
    (same : Sheet.SameSynonyms s.sheet { s.sheet with cells })
    (columns : ∀ y column, column ∈ s.sheet.columns y → column ∈ cells.columnsOf y)
    (only : ∀ y column, column ∈ cells.columnsOf y → isSynonym y = false →
      column ∈ s.sheet.columns y ∨ column = Sheet.finalColumn ∨ ∃ c ∈ done, c.title = column)
    : Inv p kinds all done { s with sheet := { s.sheet with cells } }
      ∧ Progress p kinds s { s with sheet := { s.sheet with cells } } := by
  refine ⟨⟨same.sound inv.sound, ?_, ?_, ?_⟩, ⟨rfl, rfl, ?_, columns, ?_⟩⟩
  · exact fun y row => inv.rows y ((same.rows y).mp row)
  · intro y column member
    by_cases synonym : isSynonym y = true
    · refine inv.only y column ?_
      have cell := same.cells y column synonym
      simp only [Sheet.columns, Grid.mem_columnsOf_iff] at member ⊢
      rwa [← cell]
    · have notSynonym := Bool.not_eq_true _ ▸ synonym
      rcases only y column member notSynonym with old | final | ⟨c, isDone, title⟩
      · exact inv.only y column old
      · exact .inr (.inl final)
      · exact .inr (.inr ⟨c, isDone, title, fun synonym' => absurd synonym' synonym⟩)
  · intro choice meets c member x occurs
    exact (same.left (regular.spelled c member x occurs)).mpr
      (inv.complete choice meets c member x occurs)
  · exact fun y row => (same.rows y).mpr row
  · exact fun y e synonym left => (same.left synonym).mp left

include regular inv in
/-- Noting the fixed argument of a condition changes nothing for the synonyms. -/
theorem Inv.ends_note (isDone : c ∈ done) (n : Nat)
    : Ends subject (Unsolvable p kinds all) s
        (narrow c.title Sheet.fixedRow (.ofEntity (.name (showInt n)))) fun _ s' =>
          Inv p kinds all done s' ∧ Progress p kinds s s'
          ∧ ∀ y e, isSynonym y = true →
            (s'.sheet.Left p kinds y e ↔ s.sheet.Left p kinds y e) := by
  have filled : showInt n ≠ "" := by
    intro empty
    exact (showInt_digits n).1 (by rw [empty]; rfl)
  have same : Sheet.SameSynonyms s.sheet (s.sheet.noted c.title (showInt n)) :=
    inv.sound.sameSynonyms_noted
  have columns (y column : String) : column ∈ (s.sheet.noted c.title (showInt n)).columns y
      ↔ (y = Sheet.truthRow ∧ column = Sheet.finalColumn)
        ∨ ((y = Sheet.truthRow ∨ y = Sheet.fixedRow) ∧ column = c.title)
        ∨ column ∈ s.sheet.columns y := by
    simp only [Sheet.noted, Sheet.judged, Sheet.columns, Grid.mem_columnsOf_put]
    grind
  rw [Ends, narrow, Cell.ofEntity, Sheet.narrow_fixed inv.sound.fixed filled]
  refine (and_assoc.mp ⟨?_, fun y e synonym => same.left synonym⟩)
  refine inv.of_sameSynonyms regular same
    (fun y column member => (columns y column).mpr (.inr (.inr member)))
    fun y column member _ => ?_
  rcases (columns y column).mp member with ⟨-, final⟩ | ⟨-, title⟩ | old
  · exact .inr (.inl final)
  · exact .inr (.inr ⟨c, isDone, title.symm⟩)
  · exact .inl old

end Narrow

end ProgramQuery.Evaluation

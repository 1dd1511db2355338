import ProgramQuery.Proofs.Evaluation.Titles

/-! Sheets on which the synonyms of a query are narrowed down, one outcome after the other. -/

namespace ProgramQuery

open Text

namespace Sheet

variable {s s' : Sheet} {p : Program} {kinds : String → Kind} {x y column condition : String}
  {values : EntitySet} {e : Entity} {row : Keyed Cell} {type : Datum}

def Left (s : Sheet) (p : Program) (kinds : String → Kind) (x : String) (e : Entity) : Prop :=
  match s.final? x with
  | some (.set values) => e ∈ values.members
  | _ => p.Fits (kinds x) e

/-- A sheet has a row for each synonym that was looked at. The values left to a synonym are of its
kind, and every condition recorded for it allows them. -/
structure Sound (s : Sheet) (p : Program) (kinds : String → Kind) : Prop where
  orderly : s.cells.Orderly
  truth : truthRow ∈ s.cells.rowNames
  fixed : fixedRow ∈ s.cells.rowNames
  types : ∀ x ∈ s.cells.rowNames, isSynonym x = true →
    s.cells.cell? x typeColumn = some (.text (kinds x).label)
  sets : ∀ x column cell, isSynonym x = true → column ≠ typeColumn →
    s.cells.cell? x column = some cell →
    ∃ values final, cell = .set values ∧ s.final? x = some (.set final)
      ∧ ∀ e ∈ final.members, e ∈ values.members
  fits : ∀ x final, isSynonym x = true → s.final? x = some (.set final) →
    final.members.Nodup ∧ ∀ e ∈ final.members, p.Fits (kinds x) e

def leftover (s : Sheet) (condition x : String) (values : EntitySet) : EntitySet :=
  agreed values (Keyed.put ((s.cells.row? x).getD []) condition (.set values))

def judged (s : Sheet) (condition : String) (truth : Bool) : Sheet :=
  { s with
    cells := (s.cells.put truthRow condition (.flag truth)).put truthRow finalColumn (.flag truth) }

def narrowed (s : Sheet) (condition x : String) (values : EntitySet) : Sheet :=
  { s with
    cells := (s.cells.put x condition (.set values)).put x finalColumn
      (.set (s.leftover condition x values)) }.judged condition (!values.isEmpty)

theorem narrow_set (row : x ∈ s.cells.rowNames) (synonym : x ≠ fixedRow)
    : narrow condition x (.set values) s
      = if values.isEmpty then .error .nothingLeft (s.narrowed condition x values)
        else .ok () (s.narrowed condition x values) := by
  obtain ⟨cells, found⟩ := Option.isSome_iff_exists.mp (Grid.mem_rowNames_iff.mp row)
  have differs : (x != fixedRow) = true := by simpa using synonym
  cases empty : values.isEmpty <;>
    simp [narrow, narrowed, judged, leftover, found, differs, empty, Cell.truth, get, getThe, MonadStateOf.get, set,
      modify, modifyGet, MonadStateOf.modifyGet, EStateM.get, EStateM.set, EStateM.modifyGet, bind,
      EStateM.bind, pure, EStateM.pure, throw, throwThe, MonadExceptOf.throw, EStateM.throw]

/-- What is no set is refused. -/
theorem narrow_datum (condition : String) (row : x ∈ s.cells.rowNames) (synonym : x ≠ fixedRow)
    (d : Datum)
    : narrow condition x (.datum d) s
      = .error .notASet { s with cells := s.cells.put x condition (.datum d) } := by
  obtain ⟨cells, found⟩ := Option.isSome_iff_exists.mp (Grid.mem_rowNames_iff.mp row)
  have differs : (x != fixedRow) = true := by simpa using synonym
  simp [narrow, found, differs, bind, EStateM.bind, get, getThe, MonadStateOf.get,
    EStateM.get, set, EStateM.set, throw, throwThe, MonadExceptOf.throw, EStateM.throw]

theorem narrow_of_absent (absent : x ∉ s.cells.rowNames) (outcome : Cell)
    : narrow condition x outcome s = .error (.unknownName x) s := by
  have missing : s.cells.row? x = none := by
    simpa [Grid.mem_rowNames_iff] using absent
  simp [narrow, missing, bind, EStateM.bind, get, getThe, MonadStateOf.get,
    EStateM.get, throw, throwThe, MonadExceptOf.throw, EStateM.throw]

theorem narrow_fixedRow (row : fixedRow ∈ s.cells.rowNames) (outcome : Cell)
    : narrow condition fixedRow outcome s
      = if outcome.truth then
          .ok () ({ s with cells := s.cells.put fixedRow condition outcome }.judged condition true)
        else
          .error .nothingLeft
            ({ s with cells := s.cells.put fixedRow condition outcome }.judged condition false) := by
  obtain ⟨cells, found⟩ := Option.isSome_iff_exists.mp (Grid.mem_rowNames_iff.mp row)
  cases truth : outcome.truth <;>
    simp [narrow, judged, found, truth, bind, EStateM.bind, get, getThe,
      MonadStateOf.get, EStateM.get, set, EStateM.set, modify, modifyGet, MonadStateOf.modifyGet,
      EStateM.modifyGet, pure, EStateM.pure, throw, throwThe, MonadExceptOf.throw, EStateM.throw]

/-- Cells beside the row of the synonym and that of the truth stay as they are. -/
theorem cell?_narrowed (differs : y ≠ truthRow)
    : (s.narrowed condition x values).cells.cell? y column
      = if x = y ∧ column = finalColumn then
          some (.set (s.leftover condition x values))
        else if x = y ∧ column = condition then some (.set values)
        else s.cells.cell? y column := by
  simp only [narrowed, judged, Grid.cell?_put, differs.symm, false_and, if_false]
  grind

theorem mem_rowNames_narrowed (row : x ∈ s.cells.rowNames) (truth : truthRow ∈ s.cells.rowNames)
    : y ∈ (s.narrowed condition x values).cells.rowNames ↔ y ∈ s.cells.rowNames := by
  simp only [narrowed, judged, Grid.mem_rowNames_put]
  grind

theorem mem_inter {values' : EntitySet}
    : e ∈ (values.inter values').members ↔ e ∈ values.members ∧ e ∈ values'.members := by
  simp [EntitySet.inter, EntitySet.contains]

theorem mem_agreed : e ∈ (agreed values row).members
      ↔ e ∈ values.members ∧ ∀ set, Cell.set set ∈ row.values → e ∈ set.members := by
  have fold (sets : List EntitySet) (values : EntitySet)
      : e ∈ (sets.foldl EntitySet.inter values).members
        ↔ e ∈ values.members ∧ ∀ set ∈ sets, e ∈ set.members := by
    induction sets generalizing values with
    | nil => simp
    | cons set sets ih => simp [ih, mem_inter, and_assoc]
  have kept (set : EntitySet) : set ∈ row.values.filterMap Cell.set? ↔ Cell.set set ∈ row.values := by
    rw [List.mem_filterMap]
    constructor
    · rintro ⟨cell, member, same⟩
      cases cell with
      | set other => simpa [← (Option.some.inj same : other = set)] using member
      | datum d => cases same
    · exact fun member => ⟨_, member, rfl⟩
  simp only [agreed, fold, kept]

theorem nodup_agreed (unique : values.members.Nodup)
    : (agreed values row).members.Nodup := by
  unfold agreed
  induction row.values.filterMap Cell.set? generalizing values with
  | nil => exact unique
  | cons set sets ih => exact ih (unique.filter _)

/-- The sets of a row that a new outcome has to agree with. -/
theorem mem_leftover (orderly : s.cells.Orderly) (row : x ∈ s.cells.rowNames)
    : e ∈ (s.leftover condition x values).members
      ↔ e ∈ values.members ∧ ∀ column set, column ≠ condition →
          s.cells.cell? x column = some (.set set) → e ∈ set.members := by
  obtain ⟨cells, found⟩ := Option.isSome_iff_exists.mp (Grid.mem_rowNames_iff.mp row)
  have unique : (Keyed.keys cells).Nodup := by
    simpa [Grid.columnsOf, found] using orderly.columns x
  have inRow (set : EntitySet)
      : Cell.set set ∈ (Keyed.put cells condition (.set values)).values
        ↔ set = values ∨ ∃ column, column ≠ condition ∧ Keyed.get? cells column = some (.set set) := by
    have pairs : Cell.set set ∈ (Keyed.put cells condition (.set values)).values
        ↔ ∃ column, (Keyed.put cells condition (.set values)).get? column = some (.set set) := by
      simp only [Keyed.values, List.mem_map, Prod.exists, exists_eq_right,
        Keyed.mem_iff_get? (Keyed.nodup_keys_put unique)]
    rw [pairs]
    constructor
    · rintro ⟨column, written⟩
      rw [Keyed.get?_put] at written
      split at written
      next => exact .inl (by simpa using written.symm)
      next differs => exact .inr ⟨column, fun same => differs same.symm, written⟩
    · rintro (rfl | ⟨column, differs, read⟩)
      · exact ⟨condition, by simp [Keyed.get?_put]⟩
      · exact ⟨column, by rw [Keyed.get?_put, if_neg differs.symm]; exact read⟩
  rw [leftover, found, Option.getD_some, mem_agreed]
  simp only [inRow, Grid.cell?, found, Option.bind_some]
  constructor
  · rintro ⟨member, all⟩
    exact ⟨member, fun column set differs read => all set (.inr ⟨column, differs, read⟩)⟩
  · rintro ⟨member, all⟩
    refine ⟨member, ?_⟩
    rintro set (rfl | ⟨column, differs, read⟩)
    · exact member
    · exact all column set differs read

theorem Sound.left_of_none (none : s.final? x = none) : s.Left p kinds x e ↔ p.Fits (kinds x) e := by
  simp [Left, none]

theorem Sound.left_of_final {final : EntitySet} (found : s.final? x = some (.set final))
    : s.Left p kinds x e ↔ e ∈ final.members := by
  simp [Left, found]

/-- A synonym has no values recorded, or a set. -/
theorem Sound.final_cases (sound : s.Sound p kinds) (synonym : isSynonym x = true)
    : s.final? x = none ∨ ∃ final, s.final? x = some (.set final) := by
  cases found : s.final? x with
  | none => exact .inl rfl
  | some cell =>
    obtain ⟨values, final, -, same, -⟩ := sound.sets x finalColumn cell synonym (by decide) found
    exact .inr ⟨final, by rw [← found, same]⟩

theorem Sound.left_fits (sound : s.Sound p kinds) (synonym : isSynonym x = true)
    (left : s.Left p kinds x e)
    : p.Fits (kinds x) e := by
  rcases sound.final_cases synonym with none | ⟨final, found⟩
  · exact (left_of_none none).mp left
  · exact (sound.fits x final synonym found).2 e ((left_of_final found).mp left)

/-- The values left are those that were left before and are in the new outcome. -/
theorem Sound.mem_leftover_iff (sound : s.Sound p kinds) (synonym : isSynonym x = true)
    (row : x ∈ s.cells.rowNames) (inside : ∀ e ∈ values.members, p.Fits (kinds x) e)
    (notFinal : condition ≠ finalColumn)
    : e ∈ (s.leftover condition x values).members ↔ e ∈ values.members ∧ s.Left p kinds x e := by
  rw [mem_leftover sound.orderly row]
  refine and_congr_right fun member => ?_
  have typed := sound.types x row synonym
  rcases sound.final_cases synonym with none | ⟨final, found⟩
  · rw [left_of_none none]
    refine iff_of_true (fun column set _ read => ?_) (inside e member)
    by_cases type : column = typeColumn
    · rw [type, typed] at read
      cases read
    · obtain ⟨_, final, -, found, -⟩ := sound.sets x column _ synonym type read
      rw [none] at found
      cases found
  · constructor
    · exact fun all => (left_of_final found).mpr (all finalColumn final notFinal.symm found)
    · intro left column set _ read
      by_cases type : column = typeColumn
      · rw [type, typed] at read
        cases read
      · obtain ⟨values', final', same, found', subset⟩ := sound.sets x column _ synonym type read
        obtain rfl : final' = final := by simpa [found] using found'.symm
        obtain rfl : set = values' := by simpa using same
        exact subset e ((left_of_final found).mp left)

theorem final?_narrowed_self (synonym : isSynonym x = true)
    : (s.narrowed condition x values).final? x
      = some (.set (s.leftover condition x values)) := by
  rw [final?, cell?_narrowed (synonym_ne_truthRow synonym), if_pos ⟨rfl, rfl⟩]

theorem final?_narrowed_other (synonym : isSynonym y = true) (differs : y ≠ x)
    : (s.narrowed condition x values).final? y = s.final? y := by
  rw [final?, cell?_narrowed (synonym_ne_truthRow synonym), if_neg (fun h => differs h.1.symm),
    if_neg (fun h => differs h.1.symm), final?]

theorem Sound.left_narrowed_self (sound : s.Sound p kinds) (synonym : isSynonym x = true)
    (row : x ∈ s.cells.rowNames) (inside : ∀ e ∈ values.members, p.Fits (kinds x) e)
    (notFinal : condition ≠ finalColumn)
    : (s.narrowed condition x values).Left p kinds x e
      ↔ e ∈ values.members ∧ s.Left p kinds x e := by
  rw [left_of_final (final?_narrowed_self synonym)]
  exact sound.mem_leftover_iff synonym row inside notFinal

theorem left_narrowed_other (synonym : isSynonym y = true) (differs : y ≠ x)
    : (s.narrowed condition x values).Left p kinds y e ↔ s.Left p kinds y e := by
  rw [Left, final?_narrowed_other synonym differs, Left]

theorem Sound.narrowed (sound : s.Sound p kinds) (synonym : isSynonym x = true)
    (row : x ∈ s.cells.rowNames) (outcome : condition ≠ typeColumn ∧ condition ≠ finalColumn)
    (unique : values.members.Nodup) (inside : ∀ e ∈ values.members, p.Fits (kinds x) e)
    : (s.narrowed condition x values).Sound p kinds := by
  have leftover_iff {e : Entity} := sound.mem_leftover_iff (e := e) synonym row inside outcome.2
  constructor
  case orderly => exact (((sound.orderly.put _ _ _).put _ _ _).put _ _ _).put _ _ _
  case truth => exact (mem_rowNames_narrowed row sound.truth).mpr sound.truth
  case fixed => exact (mem_rowNames_narrowed row sound.truth).mpr sound.fixed
  case types =>
    intro y inRows synonym'
    rw [cell?_narrowed (synonym_ne_truthRow synonym'), if_neg (fun h => absurd h.2 (by decide)),
      if_neg (fun h => outcome.1 h.2.symm)]
    exact sound.types y ((mem_rowNames_narrowed row sound.truth).mp inRows) synonym'
  case sets =>
    intro y column cell synonym' notType read
    rw [cell?_narrowed (synonym_ne_truthRow synonym')] at read
    by_cases same : x = y
    · subst same
      simp only [true_and] at read
      have final : (s.narrowed condition x values).final? x
          = some (.set (s.leftover condition x values)) :=
        final?_narrowed_self synonym'
      split at read
      next =>
        cases read
        exact ⟨_, _, rfl, final, fun e member => member⟩
      next =>
        split at read
        next =>
          cases read
          exact ⟨_, _, rfl, final, fun e member => (leftover_iff.mp member).1⟩
        next =>
          obtain ⟨values', final', rfl, found, subset⟩ :=
            sound.sets x column cell synonym' notType read
          exact ⟨_, _, rfl, final, fun e member =>
            subset e ((left_of_final found).mp (leftover_iff.mp member).2)⟩
    · simp only [same, false_and, if_false] at read
      rw [final?_narrowed_other synonym' (fun h => same h.symm)]
      exact sound.sets y column cell synonym' notType read
  case fits =>
    intro y final synonym' found
    by_cases same : y = x
    · subst same
      rw [final?_narrowed_self synonym'] at found
      obtain rfl : s.leftover condition y values = final := by simpa using found
      exact ⟨nodup_agreed unique, fun e member => inside e (leftover_iff.mp member).1⟩
    · rw [final?_narrowed_other synonym' same] at found
      exact sound.fits y final synonym' found

structure SameSynonyms (s s' : Sheet) : Prop where
  orderly : s.cells.Orderly → s'.cells.Orderly
  rows : ∀ y, y ∈ s'.cells.rowNames ↔ y ∈ s.cells.rowNames
  cells : ∀ y column, isSynonym y = true → s'.cells.cell? y column = s.cells.cell? y column

theorem SameSynonyms.left (same : SameSynonyms s s') (synonym : isSynonym y = true)
    : s'.Left p kinds y e ↔ s.Left p kinds y e := by
  rw [Left, final?, same.cells y _ synonym, Left, final?]

theorem SameSynonyms.sound (same : SameSynonyms s s') (sound : s.Sound p kinds)
    : s'.Sound p kinds where
  orderly := same.orderly sound.orderly
  truth := (same.rows _).mpr sound.truth
  fixed := (same.rows _).mpr sound.fixed
  types y row synonym := by
    rw [same.cells y _ synonym]
    exact sound.types y ((same.rows y).mp row) synonym
  sets y column cell synonym notType read := by
    rw [same.cells y _ synonym] at read
    rw [final?, same.cells y _ synonym]
    exact sound.sets y column cell synonym notType read
  fits y final synonym found := by
    rw [final?, same.cells y _ synonym] at found
    exact sound.fits y final synonym found

/-- Writing into the rows beside the synonyms. -/
theorem sameSynonyms_put {row : String} {cell : Cell} (inRows : row ∈ s.cells.rowNames)
    (beside : row = truthRow ∨ row = fixedRow)
    : SameSynonyms s { s with cells := s.cells.put row column cell } where
  orderly := fun orderly => orderly.put _ _ _
  rows y := by
    rw [Grid.mem_rowNames_put]
    exact or_iff_right_of_imp fun same => same ▸ inRows
  cells y column' synonym := by
    rw [Grid.cell?_put, if_neg]
    rintro ⟨rfl, -⟩
    rcases beside with same | same
    · exact synonym_ne_truthRow synonym same
    · exact synonym_ne_fixedRow synonym same

theorem SameSynonyms.trans {s'' : Sheet} (first : SameSynonyms s s') (second : SameSynonyms s' s'')
    : SameSynonyms s s'' where
  orderly := second.orderly ∘ first.orderly
  rows y := (second.rows y).trans (first.rows y)
  cells y column synonym := (second.cells y column synonym).trans (first.cells y column synonym)

theorem sameSynonyms_judged (truth : truthRow ∈ s.cells.rowNames) (value : Bool)
    : SameSynonyms s (s.judged condition value) :=
  (sameSynonyms_put truth (.inl rfl)).trans
    (sameSynonyms_put (Grid.mem_rowNames_put.mpr (.inr truth)) (.inl rfl))

def noted (s : Sheet) (condition text : String) : Sheet :=
  { s with cells := s.cells.put fixedRow condition (.text text) }.judged condition true

theorem narrow_fixed {text : String} (row : fixedRow ∈ s.cells.rowNames) (filled : text ≠ "")
    : narrow condition fixedRow (.text text) s = .ok () (s.noted condition text) := by
  obtain ⟨cells, found⟩ := Option.isSome_iff_exists.mp (Grid.mem_rowNames_iff.mp row)
  have truth : (text != "") = true := by simpa using filled
  simp [narrow, noted, judged, found, truth, Cell.truth, Datum.truth, get, getThe,
    MonadStateOf.get, set, modify, modifyGet, MonadStateOf.modifyGet, EStateM.get, EStateM.set,
    EStateM.modifyGet, bind, EStateM.bind, pure, EStateM.pure]

theorem Sound.sameSynonyms_noted {text : String} (sound : s.Sound p kinds)
    : SameSynonyms s (s.noted condition text) :=
  (sameSynonyms_put sound.fixed (.inr rfl)).trans
    (sameSynonyms_judged (Grid.mem_rowNames_put.mpr (.inr sound.truth)) true)

theorem mem_rowNames_declare
    : y ∈ (s.declare x type).cells.rowNames ↔ y = x ∨ y ∈ s.cells.rowNames := by
  unfold declare
  split
  next found =>
    refine (or_iff_right_of_imp ?_).symm
    rintro rfl
    exact Grid.mem_rowNames_iff.mpr found
  next => exact Grid.mem_rowNames_put

theorem cell?_declare : (s.declare x type).cells.cell? y column
      = if x ∉ s.cells.rowNames ∧ x = y ∧ typeColumn = column then some (.datum type)
        else s.cells.cell? y column := by
  unfold declare
  split
  next found => simp [Grid.mem_rowNames_iff.mpr found]
  next absent =>
    have fresh : x ∉ s.cells.rowNames := fun row => absent (Grid.mem_rowNames_iff.mp row)
    simp [Grid.cell?_put, fresh]

theorem final?_declare : (s.declare x type).final? y = s.final? y := by
  rw [final?, cell?_declare, if_neg (fun h => absurd h.2.2 (by decide)), final?]

theorem Sound.declare (sound : s.Sound p kinds) (synonym : isSynonym x = true)
    : (s.declare x (.text (kinds x).label)).Sound p kinds where
  orderly := by
    unfold Sheet.declare
    split
    · exact sound.orderly
    · exact sound.orderly.put _ _ _
  truth := mem_rowNames_declare.mpr (.inr sound.truth)
  fixed := mem_rowNames_declare.mpr (.inr sound.fixed)
  types y row synonym' := by
    rw [cell?_declare]
    split
    next new => rw [new.2.1]; rfl
    next old =>
      refine sound.types y ?_ synonym'
      rcases mem_rowNames_declare.mp row with rfl | row
      · by_contra fresh
        exact old ⟨fresh, rfl, rfl⟩
      · exact row
  sets y column cell synonym' notType read := by
    rw [cell?_declare, if_neg (fun h => notType h.2.2.symm)] at read
    rw [final?_declare]
    exact sound.sets y column cell synonym' notType read
  fits y final synonym' found := by
    rw [final?_declare] at found
    exact sound.fits y final synonym' found

theorem cell?_start : Sheet.start.cells.cell? y column = none := by
  simp only [Sheet.start, Grid.cell?_addRow]
  rfl

theorem Sound.start : Sheet.start.Sound p kinds where
  orderly := by
    simp only [Sheet.start]
    exact (Grid.Orderly.empty.addRow truthRow).addRow fixedRow
  truth := by decide
  fixed := by decide
  types y row synonym := by
    have rows : y ∈ [truthRow, fixedRow] := row
    rcases List.mem_pair.mp rows with rfl | rfl <;> exact absurd synonym (by decide)
  sets y column cell _ _ read := by
    rw [cell?_start] at read
    cases read
  fits y final _ found := by
    rw [final?, cell?_start] at found
    cases found

end Sheet

end ProgramQuery

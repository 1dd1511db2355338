import ProgramQuery.Proofs.Evaluation.Runs

/-! Sheets on which one synonym is restricted by one condition after the other. -/

namespace ProgramQuery

open Text

namespace Sheet

variable {ι : Type} {s : Sheet} {x row column condition : String} {cell : Cell}
  {fine : Entity → Prop} {allows : ι → String → Prop} {done : List ι} {c : ι} {e : Entity}
  {values : EntitySet} {left : Option EntitySet}

/-- The values left to a synonym, which every condition recorded for it allows. There are none as long
as nothing is recorded. -/
def Leaves (s : Sheet) (x : String) : Option EntitySet → Prop
  | none => s.final? x = none ∧ ∀ column set, s.cells.cell? x column ≠ some (.set set)
  | some final =>
    s.final? x = some (.set final)
    ∧ ∀ column set, s.cells.cell? x column = some (.set set) →
      ∀ e ∈ final.members, e ∈ set.members

/-- By their texts, the values left to the selected synonym are those that all conditions done so far
allow. No condition recorded is one between two synonyms. -/
structure Restricted (s : Sheet) (x : String) (fine : Entity → Prop) (allows : ι → String → Prop)
    (done : List ι)
    : Prop where
  orderly : s.cells.Orderly
  truth : truthRow ∈ s.cells.rowNames
  fixed : fixedRow ∈ s.cells.rowNames
  selected : s.selected.2 = x
  quiet : ∀ y, ∀ column ∈ s.columns y, Evaluation.isCondition column = false
  left : (s.Leaves x none ∧ done = []) ∨ ∃ final, s.Leaves x (some final)
    ∧ (∀ t, (∃ e ∈ final.members, e.text = t) ↔ ∀ c ∈ done, allows c t)
    ∧ ∀ e ∈ final.members, fine e

theorem Leaves.put (leaves : s.Leaves x left)
    (kept : row ≠ x ∨ (column ≠ finalColumn ∧ ∃ d, cell = .datum d))
    : { s with cells := s.cells.put row column cell }.Leaves x left := by
  have final : { s with cells := s.cells.put row column cell }.final? x = s.final? x := by
    rw [final?, Grid.cell?_put, if_neg, final?]
    rintro ⟨rfl, same⟩
    exact kept.elim (absurd rfl) fun other => other.1 same
  have sets {column' : String} {set : EntitySet}
      (read : (s.cells.put row column cell).cell? x column' = some (.set set))
      : s.cells.cell? x column' = some (.set set) := by
    rw [Grid.cell?_put] at read
    split at read
    next same =>
      obtain ⟨-, d, rfl⟩ := kept.resolve_left fun differs => differs same.1
      cases read
    next => exact read
  cases left with
  | none => exact ⟨final.trans leaves.1, fun column' set read => leaves.2 column' set (sets read)⟩
  | some values =>
    exact ⟨final.trans leaves.1, fun column' set read => leaves.2 column' set (sets read)⟩

/-- Writing something that is no value of the synonym. -/
theorem Restricted.put (restricted : s.Restricted x fine allows done)
    (quiet : Evaluation.isCondition column = false)
    (kept : row ≠ x ∨ (column ≠ finalColumn ∧ ∃ d, cell = .datum d))
    : { s with cells := s.cells.put row column cell }.Restricted x fine allows done where
  orderly := restricted.orderly.put _ _ _
  truth := Grid.mem_rowNames_put.mpr (.inr restricted.truth)
  fixed := Grid.mem_rowNames_put.mpr (.inr restricted.fixed)
  selected := restricted.selected
  quiet y column' member := by
    rcases Grid.mem_columnsOf_put.mp member with ⟨-, rfl⟩ | member
    · exact quiet
    · exact restricted.quiet y column' member
  left := restricted.left.imp (fun ⟨leaves, first⟩ => ⟨leaves.put kept, first⟩)
    fun ⟨final, leaves, rest⟩ => ⟨final, leaves.put kept, rest⟩

theorem Restricted.judged (restricted : s.Restricted x fine allows done) (differs : x ≠ truthRow)
    (quiet : Evaluation.isCondition condition = false) (truth : Bool)
    : (s.judged condition truth).Restricted x fine allows done :=
  (restricted.put quiet (.inl differs.symm)).put (by decide) (.inl differs.symm)

theorem Restricted.noted {text : String} (restricted : s.Restricted x fine allows done)
    (differs : x ≠ truthRow ∧ x ≠ fixedRow) (quiet : Evaluation.isCondition condition = false)
    : (s.noted condition text).Restricted x fine allows done :=
  (restricted.put quiet (.inl differs.2.symm)).judged differs.1 quiet true

theorem Restricted.declare {type : Datum} (restricted : s.Restricted x fine allows done)
    : (s.declare x type).Restricted x fine allows done := by
  unfold Sheet.declare
  split
  · exact restricted
  · exact restricted.put (by decide) (.inr ⟨by decide, _, rfl⟩)

theorem Restricted.start (type : String)
    : { Sheet.start with selected := (type, x) }.Restricted x fine allows [] where
  orderly := (Grid.Orderly.empty.addRow truthRow).addRow fixedRow
  truth := (by decide : truthRow ∈ Sheet.start.cells.rowNames)
  fixed := (by decide : fixedRow ∈ Sheet.start.cells.rowNames)
  selected := rfl
  quiet y column member := by
    have written := Grid.mem_columnsOf_iff.mp member
    rw [cell?_start] at written
    cases written
  left := .inl ⟨⟨cell?_start, fun _ _ read => by rw [cell?_start] at read; cases read⟩, rfl⟩

/-- The values left to the synonym, where there are any. -/
theorem Restricted.of_leaves {final : EntitySet} (restricted : s.Restricted x fine allows done)
    (leaves : s.Leaves x (some final))
    : (∀ t, (∃ e ∈ final.members, e.text = t) ↔ ∀ c ∈ done, allows c t)
      ∧ ∀ e ∈ final.members, fine e := by
  rcases restricted.left with ⟨none, -⟩ | ⟨final', leaves', rest⟩
  · cases none.1.symm.trans leaves.1
  · cases leaves'.1.symm.trans leaves.1
    exact rest

theorem Restricted.mono {weaker : Entity → Prop} (restricted : s.Restricted x fine allows done)
    (implies : ∀ e, fine e → weaker e)
    : s.Restricted x weaker allows done :=
  ⟨restricted.orderly, restricted.truth, restricted.fixed, restricted.selected, restricted.quiet,
    restricted.left.imp_right fun ⟨final, leaves, texts, all⟩ =>
      ⟨final, leaves, texts, fun e member => implies e (all e member)⟩⟩

/-- A value that nothing recorded rules out. -/
def IsOpen (s : Sheet) (x : String) (e : Entity) : Prop :=
  ∀ final, s.final? x = some (.set final) → e ∈ final.members

theorem Restricted.mem_leftover (restricted : s.Restricted x fine allows done)
    (row : x ∈ s.cells.rowNames) (differs : condition ≠ finalColumn)
    : e ∈ (s.leftover condition x values).members ↔ e ∈ values.members ∧ s.IsOpen x e := by
  rw [Sheet.mem_leftover restricted.orderly row]
  refine and_congr_right fun _ => ⟨fun all final found => ?_, fun isOpen column set _ read => ?_⟩
  · exact all finalColumn final differs.symm found
  · rcases restricted.left with ⟨⟨-, sets⟩, -⟩ | ⟨final, ⟨found, subset⟩, -⟩
    · exact absurd read (sets column set)
    · exact subset column set read e (isOpen final found)

/-- The values that one more condition leaves. Those that are still open are, by their texts, the ones
that it allows. -/
structure Picks (s : Sheet) (x : String) (fine : Entity → Prop) (allows : ι → String → Prop)
    (done : List ι) (c : ι) (values : List Entity)
    : Prop where
  texts : ∀ t, (∀ d ∈ done, allows d t) →
    (allows c t ↔ ∃ e ∈ values, s.IsOpen x e ∧ e.text = t)
  inside : ∀ e ∈ values, s.IsOpen x e → fine e

theorem Picks.congr {s' : Sheet} {values : List Entity} (picks : s.Picks x fine allows done c values)
    (same : s'.final? x = s.final? x)
    : s'.Picks x fine allows done c values := by
  have isOpen : s'.IsOpen x = s.IsOpen x := by
    funext e
    rw [IsOpen, same, IsOpen]
  exact ⟨isOpen ▸ picks.texts, isOpen ▸ picks.inside⟩

theorem Picks.ofList {values : List Entity} (picks : s.Picks x fine allows done c values)
    : s.Picks x fine allows done c (EntitySet.ofList values).members :=
  ⟨fun t before => by simpa [EntitySet.ofList] using picks.texts t before,
    fun e member => picks.inside e (List.mem_eraseDups.mp member)⟩

theorem Restricted.narrowed (restricted : s.Restricted x fine allows done)
    (row : x ∈ s.cells.rowNames) (beside : x ≠ truthRow) (differs : condition ≠ finalColumn)
    (quiet : Evaluation.isCondition condition = false)
    (picks : s.Picks x fine allows done c values.members)
    : (s.narrowed condition x values).Restricted x fine allows (done ++ [c]) := by
  have mem_leftover {e : Entity}
      : e ∈ (s.leftover condition x values).members ↔ e ∈ values.members ∧ s.IsOpen x e :=
    restricted.mem_leftover row differs
  have allowed {e : Entity} (isOpen : s.IsOpen x e) : ∀ c ∈ done, allows c e.text := by
    rcases restricted.left with ⟨-, rfl⟩ | ⟨final, ⟨found, -⟩, texts, -⟩
    · simp
    · exact (texts e.text).mp ⟨e, isOpen final found, rfl⟩
  constructor
  case orderly =>
    exact (((restricted.orderly.put _ _ _).put _ _ _).put _ _ _).put _ _ _
  case truth => exact (mem_rowNames_narrowed row restricted.truth).mpr restricted.truth
  case fixed => exact (mem_rowNames_narrowed row restricted.truth).mpr restricted.fixed
  case selected => exact restricted.selected
  case quiet =>
    intro y column member
    simp only [Sheet.narrowed, Sheet.judged, columns, Grid.mem_columnsOf_put] at member
    rcases member with ⟨-, rfl⟩ | ⟨-, rfl⟩ | ⟨-, rfl⟩ | ⟨-, rfl⟩ | member
    · decide
    · exact quiet
    · decide
    · exact quiet
    · exact restricted.quiet y column member
  case left =>
    refine .inr ⟨s.leftover condition x values, ⟨?_, ?_⟩, ?_, ?_⟩
    · rw [final?, cell?_narrowed beside, if_pos ⟨rfl, rfl⟩]
    · intro column set read e member
      rw [cell?_narrowed beside] at read
      simp only [true_and] at read
      split at read
      next =>
        cases read
        exact member
      next =>
        split at read
        next =>
          cases read
          exact (mem_leftover.mp member).1
        next =>
          rcases restricted.left with ⟨⟨-, sets⟩, -⟩ | ⟨final, ⟨found, subset⟩, -⟩
          · exact absurd read (sets column set)
          · exact subset column set read e ((mem_leftover.mp member).2 final found)
    · intro t
      simp only [mem_leftover, List.mem_append, List.mem_singleton, or_imp, forall_and,
        forall_eq]
      constructor
      · rintro ⟨e, ⟨member, isOpen⟩, rfl⟩
        have before := allowed isOpen
        exact ⟨before, (picks.texts e.text before).mpr ⟨e, member, isOpen, rfl⟩⟩
      · rintro ⟨before, now⟩
        obtain ⟨e, member, isOpen, same⟩ := (picks.texts t before).mp now
        exact ⟨e, ⟨member, isOpen⟩, same⟩
    · exact fun e member =>
        picks.inside e (mem_leftover.mp member).1 (mem_leftover.mp member).2

/-- Values that are told apart by their texts, as long as all that is left has been among such. -/
theorem Restricted.picks_of_alike (restricted : s.Restricted x fine allows done)
    (alike : ∀ e e', fine e → fine e' → e.text = e'.text → e = e') {values : List Entity}
    (texts : ∀ t, allows c t ↔ ∃ e ∈ values, e.text = t) (inside : ∀ e ∈ values, fine e)
    : s.Picks x fine allows done c values where
  texts t before := by
    rw [texts]
    refine exists_congr fun e => and_congr_right fun member =>
      (and_iff_right_of_imp fun same final found => ?_).symm
    rcases restricted.left with ⟨⟨none, -⟩, -⟩ | ⟨final', ⟨found', -⟩, texts', all⟩
    · rw [none] at found
      cases found
    · obtain rfl : final' = final := by simpa [found'] using found
      obtain ⟨e', member', same'⟩ := (texts' t).mpr before
      have equal := alike e e' (inside e member) (all e' member') (same.trans same'.symm)
      exact equal ▸ member'
  inside e member _ := inside e member

end Sheet

namespace Evaluation

/-- No text that the conditions done so far allow is allowed by one more. -/
def Excludes {ι : Type} (allows : ι → String → Prop) (done : List ι) (c : ι) : Prop :=
  ∀ t, (∀ d ∈ done, allows d t) → ¬ allows c t

variable {ι : Type} {subject : Subject} {reason : Prop} {s : State} {x condition : String}
  {fine : Entity → Prop} {allows : ι → String → Prop} {done : List ι} {c : ι}
  {values : EntitySet} (restricted : s.sheet.Restricted x fine allows done)
  (beside : x ≠ Sheet.truthRow ∧ x ≠ Sheet.fixedRow)

include restricted beside in
theorem ends_narrow (row : x ∈ s.sheet.cells.rowNames) (differs : condition ≠ Sheet.finalColumn)
    (quiet : isCondition condition = false)
    (picks : s.sheet.Picks x fine allows done c values.members)
    (excluded : Excludes allows done c → reason)
    : Ends subject reason s (narrow condition x (.set values)) fun _ s' =>
        s'.sheet.Restricted x fine allows (done ++ [c]) := by
  rw [Ends, narrow, Sheet.narrow_set row beside.2]
  by_cases empty : values.isEmpty = true
  · rw [if_pos empty]
    refine excluded fun t before now => ?_
    obtain ⟨e, member, -⟩ := (picks.texts t before).mp now
    rw [List.isEmpty_iff.mp empty] at member
    cases member
  · rw [if_neg empty]
    exact restricted.narrowed row beside.1 differs quiet picks

include restricted beside in
/-- Recording a fixed argument. -/
theorem ends_note {text : String} (quiet : isCondition condition = false) (filled : text ≠ "")
    : Ends subject reason s (narrow condition Sheet.fixedRow (.ofEntity (.name text))) fun _ s' =>
        s'.sheet.Restricted x fine allows done ∧ s'.sheet.final? x = s.sheet.final? x
        ∧ ∀ y ∈ s.sheet.cells.rowNames, y ∈ s'.sheet.cells.rowNames := by
  rw [Ends, narrow, Cell.ofEntity, Sheet.narrow_fixed restricted.fixed filled]
  refine ⟨restricted.noted beside quiet, ?_, fun y row => ?_⟩
  · simp only [Sheet.noted, Sheet.judged, Sheet.final?, Grid.cell?_put, beside.1.symm,
      beside.2.symm, false_and, if_false]
  · simp only [Sheet.noted, Sheet.judged, Grid.mem_rowNames_put, row, or_true]

include restricted in
/-- There is nothing to follow up. -/
theorem ends_followUp {title y : String} {follow : String → EvalM Unit}
    : Ends subject reason s (followUp title y follow) fun _ s' => s' = s := by
  have none : (s.sheet.columns y).filter (fun column =>
      isCondition column && column != title && !s.pending.contains column) = [] := by
    refine List.filter_eq_nil_iff.mpr fun column member => ?_
    simp [restricted.quiet y column member]
  unfold followUp
  refine .bind (.get ?_)
  dsimp only
  rw [none]
  exact .pure rfl

include restricted in
/-- There is nothing to settle. -/
theorem ends_settle : Ends subject reason s settle fun _ s' => s' = s := by
  have none : (subject.order.titles s.sheet.allColumns).filter isCondition = [] := by
    refine List.filter_eq_nil_iff.mpr fun column member => ?_
    have listed := (subject.order.titles_perm _).mem_iff.mp member
    obtain ⟨y, member⟩ := restricted.orderly.mem_allColumns.mp (List.mem_eraseDups.mp listed)
    simp [restricted.quiet y column member]
  unfold settle
  refine .bind (.read (.bind (.sheet ?_)))
  rw [none]
  exact .pure rfl

include restricted in
/-- The selected synonym stands for the values left to it, or for anything of its type where there are
none. -/
theorem ends_argument {type : String} (free : Argument.isFixedKind type = false)
    : Ends subject reason s (argument type (.name x)) fun first s' =>
        s'.sheet.Restricted x fine allows done ∧ x ∈ s'.sheet.cells.rowNames
        ∧ ((first = .synonym x (.text (initialType type))
            ∧ (s'.sheet.Leaves x none ∨ ∃ final, s'.sheet.Leaves x (some final) ∧ final.members = []))
          ∨ ∃ final, first = .synonym x (.set final) ∧ s'.sheet.Leaves x (some final)) := by
  have declared := @Sheet.Restricted.declare _ _ _ _ _ _ (.text type) restricted
  have row : x ∈ (s.sheet.declare x (.text type)).cells.rowNames :=
    Sheet.mem_rowNames_declare.mpr (.inl rfl)
  unfold argument
  simp only [free, Bool.false_eq_true, if_false]
  refine .bind (.modifySheet (.bind (.sheet ?_)))
  rw [show (Entity.name x).text = x from rfl]
  rcases declared.left with ⟨leaves, -⟩ | ⟨final, leaves, -⟩
  · rw [leaves.1]
    exact .pure ⟨declared, row, .inl ⟨rfl, .inl leaves⟩⟩
  · rw [leaves.1]
    cases empty : final.isEmpty with
    | true =>
      simp only [Cell.truth, empty, Bool.not_true, Bool.false_eq_true, if_false]
      exact .pure ⟨declared, row, .inl ⟨rfl, .inr ⟨final, leaves, List.isEmpty_iff.mp empty⟩⟩⟩
    | false =>
      simp only [Cell.truth, empty, Bool.not_false, if_true]
      exact .pure ⟨declared, row, .inr ⟨final, rfl, leaves⟩⟩

end Evaluation

end ProgramQuery

import ProgramQuery.Proofs.Program.Effects
import ProgramQuery.Proofs.Program.Spans
import ProgramQuery.Proofs.Program.Writing
import ProgramQuery.Proofs.Relation.Walks

/-! The tables that are filled while a program is read hold what is recorded about the program. What is
written is taken apart statement by statement. Then only the order is another one: control comes into a
body before the body is known, statements are listed when they end, and rows come up as they are needed.
-/

open Relation (TransGen)

namespace ProgramQuery

open Text ProgramQuery.Relation

/-- Two tables with the same rows and the same cells. -/
structure Grid.Same (g g' : Grid Int) : Prop where
  rows : ∀ row, row ∈ g.rowNames ↔ row ∈ g'.rowNames
  cells : ∀ row column, g.cell? row column = g'.cell? row column

/-- Tables of marks are the same if the same cells are there. -/
theorem Grid.Marks.same {g g' : Grid Int} (marks : g.Marks) (marks' : g'.Marks)
    (rows : ∀ row, row ∈ g.rowNames ↔ row ∈ g'.rowNames)
    (columns : ∀ row column, column ∈ g.columnsOf row ↔ column ∈ g'.columnsOf row)
    : g.Same g' := by
  refine ⟨rows, fun row column => ?_⟩
  have there := columns row column
  rw [Grid.mem_columnsOf_iff, Grid.mem_columnsOf_iff] at there
  cases found : g.cell? row column with
  | none =>
    rw [found] at there
    exact (Option.not_isSome_iff_eq_none.mp fun some => by simpa using there.mpr some).symm
  | some value =>
    rw [found] at there
    obtain ⟨value', found'⟩ := Option.isSome_iff_exists.mp (there.mp rfl)
    rw [found', marks row column value found, marks' row column value' found']

theorem Grid.same_ofLines {pairs pairs' : List (Nat × Nat)} (same : ∀ e, e ∈ pairs ↔ e ∈ pairs')
    : (Grid.ofLines pairs).Same (.ofLines pairs') := by
  refine (Grid.Marks.ofPairs _).same (.ofPairs _) (fun row => ?_) fun row column => ?_
  · simp only [Grid.ofLines, Grid.mem_rowNames_ofPairs, List.mem_map, same]
  · simp only [Grid.ofLines, Grid.mem_columnsOf_ofPairs, List.mem_map, same]

namespace Program.Log

/-- What a log holds, whatever the order. -/
def content (l : Log)
    : Multiset (Nat × Nat) × Multiset (Nat × Nat) × Multiset (Nat × Option Nat)
      × Multiset StatementEntry × Multiset ProcedureEntry :=
  (l.next, l.follows, l.parent, l.statements, l.procedures)

@[simp]
theorem content_append (l l' : Log) : (l ++ l').content = l.content + l'.content := by
  simp [content]

@[simp]
theorem content_nothing : ({} : Log).content = 0 :=
  rfl

/-- Many logs with the content of one have the same entries in another order. -/
theorem perm_of_content {l : Log} {parts : List Log} (same : l.content = (parts.map content).sum)
    : l.next.Perm (parts.flatMap Log.next) ∧ l.follows.Perm (parts.flatMap Log.follows)
      ∧ l.parent.Perm (parts.flatMap Log.parent)
      ∧ l.statements.Perm (parts.flatMap Log.statements)
      ∧ l.procedures.Perm (parts.flatMap Log.procedures) := by
  have together : (parts.map content).sum = content ⟨parts.flatMap Log.next, parts.flatMap Log.follows,
      parts.flatMap Log.parent, parts.flatMap Log.statements, parts.flatMap Log.procedures⟩ := by
    clear same
    induction parts with
    | nil => rfl
    | cons part rest ih =>
      rw [List.map_cons, List.sum_cons, ih]
      simp [content]
  rw [together] at same
  simpa [content] using same

end Program.Log

/-- What is written because the statements of a list come one after the other. -/
def Stmt.joints (line : Nat) : List Stmt → Program.Log
  | [] => {}
  | [_] => {}
  | s :: s' :: rest =>
    .joined line (s.exits line) (line + s.size) ++ Stmt.joints (line + s.size) (s' :: rest)

/-- What is written of a statement apart from what is written of those inside. -/
def Stmt.ownLog (line : Nat) : Stmt → Program.Log
  | .assign target value => { statements := [(Stmt.assign target value).entry line] }
  | .call callee => { statements := [(Stmt.call callee).entry line] }
  | .loop condition body =>
    .steps [line] (line + 1) ++ Stmt.joints (line + 1) body
      ++ { statements := [(Stmt.loop condition body).entry line] }
      ++ .steps (Stmt.listExits (line + 1) body) line
      ++ ({ parent := [(line, none)] } ++ .adopted line (Stmt.lines (line + 1) body))
  | .branch condition thenBody elseBody =>
    let elseLine := line + 1 + Stmt.sizes thenBody
    .steps [line] (line + 1) ++ Stmt.joints (line + 1) thenBody
      ++ ({ parent := [(line, none)] } ++ .adopted line (Stmt.lines (line + 1) thenBody))
      ++ .steps [line] elseLine ++ Stmt.joints elseLine elseBody
      ++ .adopted line (Stmt.lines elseLine elseBody)
      ++ { statements := [(Stmt.branch condition thenBody elseBody).entry line] }

theorem Stmt.content_joints_cons (line : Nat) (s : Stmt) (rest : List Stmt)
    : (Stmt.joints line (s :: rest)).content
      = (if rest = [] then 0 else (Program.Log.joined line (s.exits line) (line + s.size)).content)
        + (Stmt.joints (line + s.size) rest).content := by
  cases rest <;> simp [Stmt.joints]

mutual

/-- What is written while a statement is read is what is written of it and of each statement inside. -/
theorem Stmt.content_log (line : Nat) (s : Stmt)
    : (s.log line).content
      = ((s.listing line).map fun entry => (entry.2.ownLog entry.1).content).sum := by
  match s with
  | .assign _ _ => simp [Stmt.log, Stmt.listing, Stmt.ownLog]
  | .call _ => simp [Stmt.log, Stmt.listing, Stmt.ownLog]
  | .loop condition body =>
    have inside := Stmt.content_logs (line + 1) none body
    simp only [Stmt.log, Stmt.listing, Stmt.ownLog, Program.Log.content_append, inside, List.map_cons,
      List.sum_cons, Option.map_none, Option.getD_none, Program.Log.content_nothing, ite_self]
    abel
  | .branch condition thenBody elseBody =>
    have first := Stmt.content_logs (line + 1) none thenBody
    have second := Stmt.content_logs (line + 1 + Stmt.sizes thenBody) none elseBody
    simp only [Stmt.log, Stmt.listing, Stmt.ownLog, Program.Log.content_append, first, second,
      List.map_cons, List.sum_cons, List.map_append, List.sum_append, Option.map_none,
      Option.getD_none, Program.Log.content_nothing, ite_self]
    abel

theorem Stmt.content_logs (line : Nat) (previous : Option (Nat × Stmt)) (body : List Stmt)
    : (Stmt.logs line previous body).content
      = (if body = [] then 0 else ((previous.map fun p =>
            Program.Log.joined p.1 (p.2.exits p.1) line).getD {}).content)
        + (Stmt.joints line body).content
        + ((Stmt.listings line body).map fun entry => (entry.2.ownLog entry.1).content).sum := by
  match body with
  | [] => simp [Stmt.logs, Stmt.joints, Stmt.listings]
  | s :: rest =>
    have first := Stmt.content_log line s
    have others := Stmt.content_logs (line + s.size) (some (line, s)) rest
    simp only [Stmt.logs, Stmt.listings, Program.Log.content_append, first, others,
      Stmt.content_joints_cons, List.map_append, List.sum_append, Option.map_some, Option.getD_some,
      List.cons_ne_nil, if_false]
    abel

end

theorem Stmt.joints_fields (line : Nat) (body : List Stmt)
    : (Stmt.joints line body).next = (Stmt.sequenceSteps line body).map Prod.swap
      ∧ (Stmt.joints line body).follows = Stmt.neighbours line body
      ∧ (Stmt.joints line body).parent = [] ∧ (Stmt.joints line body).statements = []
      ∧ (Stmt.joints line body).procedures = [] := by
  induction body generalizing line with
  | nil => exact ⟨rfl, rfl, rfl, rfl, rfl⟩
  | cons s rest ih =>
    cases rest with
    | nil => exact ⟨rfl, rfl, rfl, rfl, rfl⟩
    | cons s' rest =>
      obtain ⟨next, follows, parent, statements, procedures⟩ := ih (line + s.size)
      simp [Stmt.joints, next, follows, parent, statements, procedures, Program.Log.joined,
        Stmt.sequenceSteps, Stmt.neighbours, Stmt.lines]

/-- What is written of Parent at a statement: its row, and the statements directly inside. -/
def Stmt.Holds (entry : Nat × Stmt) (written : Nat × Option Nat) : Prop :=
  entry.2.isContainer = true ∧ written.1 = entry.1
    ∧ ∀ child ∈ written.2, child ∈ entry.2.childLines entry.1

theorem Stmt.mem_next_ownLog {line before after : Nat} {s : Stmt}
    : (after, before) ∈ (s.ownLog line).next ↔ (before, after) ∈ s.innerSteps line := by
  cases s with
  | assign | call => simp [Stmt.ownLog, Stmt.innerSteps]
  | loop condition body =>
    simp [Stmt.ownLog, Stmt.innerSteps, Program.Log.steps, Program.Log.adopted, Stmt.joints_fields]
    tauto
  | branch condition thenBody elseBody =>
    simp [Stmt.ownLog, Stmt.innerSteps, Program.Log.steps, Program.Log.adopted, Stmt.joints_fields]
    tauto

theorem Stmt.follows_ownLog (line : Nat) (s : Stmt)
    : (s.ownLog line).follows = s.innerNeighbours line := by
  cases s <;> simp [Stmt.ownLog, Stmt.innerNeighbours, Program.Log.steps, Program.Log.adopted,
    Stmt.joints_fields]

theorem Stmt.mem_parent_ownLog {line : Nat} {s : Stmt} {e : Nat × Option Nat}
    : e ∈ (s.ownLog line).parent ↔ Stmt.Holds (line, s) e := by
  obtain ⟨row, child⟩ := e
  cases s <;> cases child <;> simp [Stmt.ownLog, Stmt.Holds, Stmt.isContainer, Stmt.childLines,
    Program.Log.steps, Program.Log.adopted, Stmt.joints_fields] <;> tauto

theorem Stmt.statements_ownLog (line : Nat) (s : Stmt)
    : (s.ownLog line).statements = [s.entry line] ∧ (s.ownLog line).procedures = [] := by
  cases s <;> simp [Stmt.ownLog, Program.Log.steps, Program.Log.adopted, Stmt.joints_fields]

/-- Entries for rows of a span, none of which is started anew after something has been written in it. -/
structure Fresh (start stop : Nat) (entries : List (Nat × Option Nat)) : Prop where
  span : ∀ e ∈ entries, start ≤ e.1 ∧ e.1 < stop
  anew : entries.Pairwise fun e e' => e'.2 = none → e.1 ≠ e'.1

section Fresh

variable {start middle stop : Nat} {entries entries' : List (Nat × Option Nat)}

theorem Fresh.nil : Fresh start stop [] :=
  ⟨by simp, .nil⟩

theorem Fresh.append (first : Fresh start middle entries) (second : Fresh middle stop entries')
    (le : start ≤ middle) (le' : middle ≤ stop)
    : Fresh start stop (entries ++ entries') where
  span := by
    rw [List.forall_mem_append]
    refine ⟨fun e member => ?_, fun e member => ?_⟩
    · exact ⟨(first.span e member).1, (first.span e member).2.trans_le le'⟩
    · exact ⟨le.trans (second.span e member).1, (second.span e member).2⟩
  anew := by
    refine List.pairwise_append.mpr ⟨first.anew, second.anew, fun e member e' member' _ same => ?_⟩
    have := (first.span e member).2
    have := (second.span e' member').1
    omega

theorem Fresh.reset (fresh : Fresh (start + 1) stop entries) (inside : start < stop)
    : Fresh start stop (entries ++ [(start, none)]) where
  span := by
    rw [List.forall_mem_append]
    refine ⟨fun e member => ⟨by have := (fresh.span e member).1; omega, (fresh.span e member).2⟩, ?_⟩
    simpa using inside
  anew := by
    refine List.pairwise_append.mpr ⟨fresh.anew, List.pairwise_singleton _ _, fun e member e' own _ => ?_⟩
    obtain rfl := List.mem_singleton.mp own
    have := (fresh.span e member).1
    exact Nat.ne_of_gt this

theorem Fresh.adopt (fresh : Fresh start stop entries) (inside : start < stop) (children : List Nat)
    : Fresh start stop (entries ++ children.map (start, some ·)) where
  span := by
    rw [List.forall_mem_append]
    refine ⟨fresh.span, ?_⟩
    simpa using fun _ _ => inside
  anew := by
    have kept : ∀ e ∈ children.map (fun child => (start, some child)), e.2 ≠ none := by simp
    refine List.pairwise_append.mpr ⟨fresh.anew, ?_, fun e _ e' own none => absurd none (kept e' own)⟩
    exact List.pairwise_iff_forall_sublist.mpr fun sub none =>
      absurd none (kept _ (sub.subset (by simp)))

end Fresh

mutual

theorem Stmt.fresh_log (line : Nat) (s : Stmt)
    : Fresh line (line + s.size) (s.log line).parent := by
  match s with
  | .assign _ _ => exact .nil
  | .call _ => exact .nil
  | .loop condition body =>
    have inside := Stmt.fresh_logs (line + 1) none body
    have size : line + (Stmt.loop condition body).size = line + 1 + Stmt.sizes body := by
      rw [Stmt.size, Nat.add_assoc]
    -- the rows inside have greater numbers than the one that is started after them
    have own := (inside.reset (by omega)).adopt (by omega) (Stmt.lines (line + 1) body)
    simpa [Stmt.log, Program.Log.steps, Program.Log.adopted, size] using own
  | .branch condition thenBody elseBody =>
    have first := Stmt.fresh_logs (line + 1) none thenBody
    have second := Stmt.fresh_logs (line + 1 + Stmt.sizes thenBody) none elseBody
    have size : line + (Stmt.branch condition thenBody elseBody).size
        = line + 1 + Stmt.sizes thenBody + Stmt.sizes elseBody := by
      rw [Stmt.size]
      omega
    have own := (first.reset (by omega)).adopt (by omega) (Stmt.lines (line + 1) thenBody)
    -- the second pass only adds to the row, so what the first one wrote stays
    have all := (own.append second (by omega) (by omega)).adopt (by omega)
      (Stmt.lines (line + 1 + Stmt.sizes thenBody) elseBody)
    simpa [Stmt.log, Program.Log.steps, Program.Log.adopted, size] using all

theorem Stmt.fresh_logs (line : Nat) (previous : Option (Nat × Stmt)) (body : List Stmt)
    : Fresh line (line + Stmt.sizes body) (Stmt.logs line previous body).parent := by
  match body with
  | [] => exact .nil
  | s :: rest =>
    have all := (Stmt.fresh_log line s).append (Stmt.fresh_logs (line + s.size) (some (line, s)) rest)
      (by omega) (by omega)
    rw [Nat.add_assoc] at all
    cases previous <;> simpa [Stmt.logs, Program.Log.joined, Stmt.sizes] using all

end

namespace Program

theorem fresh_logFrom (line : Nat) (procedures : List Procedure)
    : ∃ stop, line ≤ stop ∧ Fresh line stop (Program.logFrom line procedures).parent := by
  induction procedures generalizing line with
  | nil => exact ⟨line, le_rfl, .nil⟩
  | cons p rest ih =>
    obtain ⟨stop, le, others⟩ := ih (line + Stmt.sizes p.body)
    refine ⟨stop, by omega, ?_⟩
    simpa [Program.logFrom, Procedure.log] using
      (Stmt.fresh_logs line none p.body).append others (by omega) le

/-- A row that is not there is started by adding it. -/
theorem foldl_noteParent {entries : List (Nat × Option Nat)} {g : Grid Int}
    (anew : entries.Pairwise fun e e' => e'.2 = none → e.1 ≠ e'.1)
    (absent : ∀ e ∈ entries, e.2 = none → showInt e.1 ∉ g.rowNames)
    : entries.foldl Tables.noteParent g
      = entries.foldl (Grid.write (fun e => e.2.isNone) (fun e => showInt e.1)
        fun e => e.2.toList.map fun (n : Nat) => showInt n) g := by
  induction entries generalizing g with
  | nil => rfl
  | cons e rest ih =>
    obtain ⟨later, anew⟩ := List.pairwise_cons.mp anew
    have same : Tables.noteParent g e = g.write (fun e => e.2.isNone) (fun e => showInt e.1)
        (fun e => e.2.toList.map fun (n : Nat) => showInt n) e := by
      obtain ⟨row, child⟩ := e
      cases child with
      | none =>
        have missing : g.rows.has (showInt row) = false := by
          rw [← Bool.not_eq_true, Keyed.has_iff]
          exact absent (row, none) (by simp) rfl
        simp [Tables.noteParent, Tables.setRow, Grid.write, Grid.putAll, Grid.addRow, missing]
      | some child => rfl
    rw [List.foldl_cons, List.foldl_cons, ← same]
    refine ih anew fun e' member none there => ?_
    rw [same, Grid.mem_rowNames_write] at there
    rcases there with ⟨row, -⟩ | there
    · exact later e' member none (showInt_injective row)
    · exact absent e' (List.mem_cons_of_mem _ member) none there

/-- Replacing rows is adding to them where each row has one column only. -/
theorem foldl_setRow {pairs : List (Nat × Nat)} {g : Grid Int}
    (functional : ∀ e ∈ pairs, ∀ e' ∈ pairs, e.1 = e'.1 → e.2 = e'.2)
    (kept : ∀ e ∈ pairs, g.row? (showInt e.1) = none
      ∨ g.row? (showInt e.1) = some [(showInt e.2, 1)])
    : pairs.foldl (fun g e => Tables.setRow g (showInt e.1) [(showInt e.2, 1)]) g
      = pairs.foldl (fun g e => g.put (showInt e.1) (showInt e.2) 1) g := by
  induction pairs generalizing g with
  | nil => rfl
  | cons e rest ih =>
    have same : Tables.setRow g (showInt e.1) [(showInt e.2, 1)]
        = g.put (showInt e.1) (showInt e.2) 1 := by
      rcases kept e (by simp) with row | row <;>
        simp [Tables.setRow, Grid.put, row, Keyed.put]
    rw [List.foldl_cons, List.foldl_cons, ← same]
    refine ih (fun e member e' member' => functional e (by simp [member]) e' (by simp [member']))
      fun e' member => ?_
    rw [Grid.row?, Tables.setRow, Keyed.get?_put]
    split
    next row =>
      rw [functional e (by simp) e' (by simp [member]) (showInt_injective row)]
      exact .inr rfl
    next => exact kept e' (by simp [member])

variable (p : Program)

/-- What is written of a program, statement by statement. -/
def parts : List Log :=
  p.numbered.map (fun entry => Stmt.joints entry.1 entry.2.body
      ++ { procedures := [⟨entry.2.name, entry.1, entry.1 + Stmt.sizes entry.2.body - 1⟩] })
    ++ p.listing.map fun entry => entry.2.ownLog entry.1

theorem content_logFrom : (Program.logFrom 1 p.procedures).content = (p.parts.map Log.content).sum := by
  have general (line : Nat) (procedures : List Procedure)
      : (Program.logFrom line procedures).content
        = ((Program.starts line procedures).map fun entry => (Stmt.joints entry.1 entry.2.body
            ++ { procedures := [⟨entry.2.name, entry.1, entry.1 + Stmt.sizes entry.2.body - 1⟩] } :
            Log).content).sum
          + (((Program.starts line procedures).flatMap fun entry =>
            Stmt.listings entry.1 entry.2.body).map fun entry => (entry.2.ownLog entry.1).content).sum := by
    induction procedures generalizing line with
    | nil => simp [Program.logFrom, Program.starts]
    | cons procedure rest ih =>
      simp only [Program.logFrom, Procedure.log, Log.content_append, Stmt.content_logs, ih,
        Program.starts, List.map_cons, List.sum_cons, List.flatMap_cons, List.map_append,
        List.sum_append, Option.map_none, Option.getD_none, Log.content_nothing, ite_self]
      abel
  rw [general, parts, List.map_append, List.sum_append, List.map_map, List.map_map]
  rfl

/-- The tables that are filled while a program is read. -/
def tables : Tables :=
  (Tables.empty.enter (Program.logFrom 1 p.procedures)).sorted

theorem mem_next_log {before after : Nat}
    : (after, before) ∈ (Program.logFrom 1 p.procedures).next ↔ (before, after) ∈ p.steps := by
  rw [(Log.perm_of_content p.content_logFrom).1.mem_iff]
  simp only [parts, Program.steps, List.flatMap_append, List.flatMap_map, List.mem_append,
    List.mem_flatMap]
  refine or_congr (exists_congr fun entry => and_congr_right fun _ => ?_)
    (exists_congr fun entry => and_congr_right fun _ => Stmt.mem_next_ownLog)
  simp [Stmt.joints_fields]

theorem mem_follows_log {a b : Nat}
    : (a, b) ∈ (Program.logFrom 1 p.procedures).follows ↔ (a, b) ∈ p.neighbours := by
  rw [(Log.perm_of_content p.content_logFrom).2.1.mem_iff]
  simp only [parts, Program.neighbours, List.flatMap_append, List.flatMap_map, List.mem_append,
    List.mem_flatMap]
  refine or_congr (exists_congr fun entry => and_congr_right fun _ => ?_)
    (exists_congr fun entry => and_congr_right fun _ => ?_)
  · simp [Stmt.joints_fields]
  · rw [Stmt.follows_ownLog]

theorem mem_parent_log {e : Nat × Option Nat}
    : e ∈ (Program.logFrom 1 p.procedures).parent ↔ ∃ entry ∈ p.listing, Stmt.Holds entry e := by
  rw [(Log.perm_of_content p.content_logFrom).2.2.1.mem_iff]
  simp [parts, List.flatMap_map, Stmt.joints_fields, Stmt.mem_parent_ownLog]

theorem same_next : p.tables.next.Same p.nextGrid := by
  have written : p.tables.next = .ofLines (Program.logFrom 1 p.procedures).next := by
    simp only [tables, Tables.sorted, Tables.enter, Grid.ofLines, Grid.ofPairs, List.foldl_map]
    rfl
  rw [written, Program.nextGrid]
  refine Grid.same_ofLines fun e => ?_
  rw [p.mem_next_log, List.mem_map]
  constructor
  · exact fun member => ⟨(e.2, e.1), member, rfl⟩
  · rintro ⟨_, member, rfl⟩
    exact member

theorem same_follows : p.tables.follows.Same p.followsGrid := by
  have functional : ∀ e ∈ (Program.logFrom 1 p.procedures).follows,
      ∀ e' ∈ (Program.logFrom 1 p.procedures).follows, e.1 = e'.1 → e.2 = e'.2 := by
    intro e member e' member' same
    have first := Program.mem_neighbours.mp (p.mem_follows_log.mp member)
    have second := Program.mem_neighbours.mp (p.mem_follows_log.mp member')
    rw [← same] at second
    exact first.unique_right second
  have written : p.tables.follows = .ofLines (Program.logFrom 1 p.procedures).follows := by
    simp only [tables, Tables.sorted, Tables.enter, Grid.ofLines, Grid.ofPairs, List.foldl_map]
    exact foldl_setRow functional fun _ _ => .inl rfl
  rw [written, Program.followsGrid]
  exact Grid.same_ofLines fun e => p.mem_follows_log

theorem same_parent : p.tables.parent.Same p.parentGrid := by
  obtain ⟨stop, -, fresh⟩ := fresh_logFrom 1 p.procedures
  have written : p.tables.parent = _ :=
    foldl_noteParent fresh.anew fun _ _ _ => Grid.not_mem_rowNames_empty
  rw [written, p.parentGrid_eq]
  refine (Grid.Marks.foldl_write _ _ _ _ .empty).same (.foldl_write _ _ _ _ .empty)
    (fun row => ?_) fun row column => ?_
  · simp only [Grid.mem_rowNames_foldl_write, p.mem_parent_log, Grid.not_mem_rowNames_empty, or_false]
    constructor
    · rintro ⟨e, ⟨entry, listed, container, line, -⟩, rfl, -⟩
      exact ⟨(entry.1, _), Program.mem_families.mpr ⟨entry.2, listed, container, rfl⟩, by rw [line],
        .inl trivial⟩
    · rintro ⟨⟨line, children⟩, family, rfl, -⟩
      obtain ⟨s, listed, container, -⟩ := Program.mem_families.mp family
      exact ⟨(line, none), ⟨(line, s), listed, container, rfl, by simp⟩, rfl, .inl rfl⟩
  · simp only [Grid.mem_columnsOf_foldl_write, p.mem_parent_log, Grid.not_mem_columnsOf_empty,
      or_false, List.mem_map, Option.mem_toList]
    constructor
    · rintro ⟨e, ⟨entry, listed, container, line, inside⟩, rfl, child, found, rfl⟩
      exact ⟨(entry.1, _), Program.mem_families.mpr ⟨entry.2, listed, container, rfl⟩, by rw [line],
        child, inside child found, rfl⟩
    · rintro ⟨⟨line, children⟩, family, rfl, child, member, rfl⟩
      obtain ⟨s, listed, container, rfl⟩ := Program.mem_families.mp family
      exact ⟨(line, some child), ⟨(line, s), listed, container, rfl, by simpa using member⟩, rfl, child,
        rfl, rfl⟩

theorem tables_statements : p.tables.statements = p.statementEntries := by
  have perm : (Program.logFrom 1 p.procedures).statements.Perm p.statementEntries := by
    refine (Log.perm_of_content p.content_logFrom).2.2.2.1.trans (.of_eq ?_)
    have nothing : p.numbered.flatMap (fun _ => ([] : List StatementEntry)) = [] := by
      simp [List.flatMap_eq_nil_iff]
    simp [parts, List.flatMap_map, Stmt.joints_fields, Stmt.statements_ownLog,
      Program.statementEntries]
    rw [nothing, List.nil_append, ← List.map_eq_flatMap]
  have lines : p.statementEntries.map (·.line) = (List.range' 1 p.size).map Nat.cast := by
    rw [Program.statementEntries, List.map_map, ← p.listing_lines, List.map_map]
    rfl
  have increasing : p.statementEntries.Pairwise fun e e' => e.line < e'.line := by
    rw [← List.pairwise_map (R := (· < ·)), lines, List.pairwise_map]
    have less : (List.range' 1 p.size).Pairwise (· < ·) := List.pairwise_lt_range'
    exact less.imp Int.ofNat_lt.mpr
  have sorted : ((Program.logFrom 1 p.procedures).statements.mergeSort
      fun e e' => decide (e.line ≤ e'.line)).Pairwise fun e e' => decide (e.line ≤ e'.line) = true :=
    List.pairwise_mergeSort (by simp; omega) (by simp; omega) _
  have inside := (List.mergeSort_perm (Program.logFrom 1 p.procedures).statements
    fun e e' => decide (e.line ≤ e'.line)).trans perm
  refine inside.eq_of_pairwise (fun e e' member member' first second => ?_) sorted
    (increasing.imp fun less => by simpa using less.le)
  -- no two statements have one number, so there is only one sorted order
  have nodup : (p.statementEntries.map (·.line)).Nodup :=
    List.pairwise_map.mpr (increasing.imp fun less => less.ne)
  refine List.inj_on_of_nodup_map nodup (inside.mem_iff.mp member) member' ?_
  simp only [decide_eq_true_eq] at first second
  omega

theorem tables_procedures : p.tables.procedures = p.procedureEntries := by
  have none (line : Nat) (body : List Stmt) : (Stmt.logs line none body).procedures = [] := by
    have parts := Stmt.content_logs line none body
    have same : (Stmt.logs line none body).content = ((Stmt.joints line body
        :: (Stmt.listings line body).map fun entry => entry.2.ownLog entry.1).map Log.content).sum := by
      rw [parts, List.map_cons, List.sum_cons, List.map_map]
      simp [Function.comp_def]
    have perm := (Log.perm_of_content same).2.2.2.2
    refine List.perm_nil.mp (perm.trans (.of_eq ?_))
    simp [List.flatMap_map, Stmt.joints_fields, Stmt.statements_ownLog]
  have general (line : Nat) (procedures : List Procedure)
      : (Program.logFrom line procedures).procedures = (Program.starts line procedures).map
        fun entry => ⟨entry.2.name, entry.1, entry.1 + Stmt.sizes entry.2.body - 1⟩ := by
    induction procedures generalizing line with
    | nil => rfl
    | cons procedure rest ih => simp [Program.logFrom, Procedure.log, none, ih, Program.starts]
  exact general 1 p.procedures

end Program

/-- The pass over the sorted statements that comes last. To the row that was filled while a statement was
read, a call adds what is recorded for the procedure that it names. A loop or branch adds what is recorded
for the procedures named by the calls of its span, behind its own place.
-/
def Effect.sweep (entries : List StatementEntry) (procedures : Keyed (List String)) (row : List String)
    (e : StatementEntry)
    : List String :=
  let takeOver (e : StatementEntry) :=
    if e.kind = "CALL" then Effect.recorded procedures e.value else []
  if e.kind = "WHILE" ∨ e.kind = "IF" then
    row ++ ((entries.drop e.start.toNat).take (e.finish - e.start).toNat).flatMap takeOver
  else row ++ takeOver e

namespace Program

variable {p : Program} {procedures : Keyed (List String)} {effect : Effect} {line : Nat} {s : Stmt}

/-- The place of a statement in the listing is its number, counted from zero. -/
theorem mem_slice_listing {start length : Nat} {entry : Nat × Stmt}
    : entry ∈ (p.listing.drop start).take length
      ↔ entry ∈ p.listing ∧ start < entry.1 ∧ entry.1 ≤ start + length := by
  simp only [List.mem_iff_getElem?, List.getElem?_take, List.getElem?_drop]
  constructor
  · rintro ⟨i, found⟩
    split at found
    next inside =>
      have number := Program.getElem?_listing found
      exact ⟨⟨_, found⟩, by omega, by omega⟩
    next => cases found
  · rintro ⟨⟨i, found⟩, first, last⟩
    have number := Program.getElem?_listing found
    refine ⟨i - start, ?_⟩
    rw [if_pos (by omega), show start + (i - start) = i by omega]
    exact found

/-- A call inside a statement that is none stands in the span behind it. -/
theorem within_call_iff (listed : (line, s) ∈ p.listing) (container : s.isContainer = true)
    {callee : String}
    : Stmt.Within (.call callee) s
      ↔ ∃ k, (k, .call callee) ∈ (p.listing.drop line).take (s.size - 1) := by
  rw [← Stmt.mem_listing_iff_within line]
  refine exists_congr fun k => ?_
  have pos := s.size_pos
  rw [mem_slice_listing]
  constructor
  · intro inside
    have listed' := listing_subset listed inside
    have span := (mem_listing_iff_span listed listed').mp inside
    refine ⟨listed', ?_, by omega⟩
    -- at its own number stands the statement, which is no call
    refine Nat.lt_of_le_of_ne span.1 fun same => ?_
    subst same
    cases Program.listing_unique listed listed'
    cases container
  · rintro ⟨listed', first, last⟩
    exact (mem_listing_iff_span listed listed').mpr ⟨first.le, by omega⟩

/-- The last pass gives each statement what it does with the procedures that it calls. -/
theorem mem_sweep (listed : (line, s) ∈ p.listing) {v : String}
    : v ∈ Effect.sweep p.tables.statements procedures (effect.ofList [s]) (s.entry line)
      ↔ v ∈ effect.ofStmt procedures s := by
  have own : v ∈ effect.ofList [s] ↔ ∃ t, Stmt.Within t s ∧ v ∈ effect t := by
    simp [Effect.mem_ofList]
  rw [p.tables_statements, Effect.mem_ofStmt, ← own]
  cases container : s.isContainer with
  | false =>
    cases s with
    | assign target value =>
      have none (callee : String) : ¬ Stmt.Within (.call callee) (.assign target value) := by
        rw [Stmt.within_iff]
        simp [Stmt.parts]
      simp [Effect.sweep, Stmt.entry, Stmt.kind, none]
    | call name =>
      have only (callee : String) : Stmt.Within (.call callee) (.call name) ↔ callee = name := by
        rw [Stmt.within_iff]
        simp [Stmt.parts]
      simp [Effect.sweep, Stmt.entry, Stmt.kind, Stmt.head, only]
    | loop => cases container
    | branch => cases container
  | true =>
    have kind : (s.entry line).kind = "WHILE" ∨ (s.entry line).kind = "IF" := by
      cases s <;> simp_all [Stmt.entry, Stmt.kind, Stmt.isContainer]
    have length : ((s.entry line).finish - (s.entry line).start).toNat = s.size - 1 := by
      simp only [Stmt.entry]
      omega
    -- the places count from zero, so the span that is looked at starts behind the statement itself
    have slice : (p.statementEntries.drop (s.entry line).start.toNat).take
          ((s.entry line).finish - (s.entry line).start).toNat
        = ((p.listing.drop line).take (s.size - 1)).map fun entry => entry.2.entry entry.1 := by
      rw [length, Program.statementEntries, List.map_take, List.map_drop]
      rfl
    have calls (entry : Nat × Stmt) : (entry.2.entry entry.1).kind = "CALL"
        ↔ ∃ callee, entry.2 = .call callee := by
      obtain ⟨k, t⟩ := entry
      cases t <;> simp [Stmt.entry, Stmt.kind]
    rw [Effect.sweep, if_pos kind, List.mem_append, slice]
    refine or_congr_right ?_
    simp only [List.mem_flatMap, List.mem_map, within_call_iff listed container]
    constructor
    · rintro ⟨_, ⟨⟨k, t⟩, inside, rfl⟩, found⟩
      split at found
      next isCall =>
        obtain ⟨callee, rfl⟩ := (calls (k, t)).mp isCall
        exact ⟨callee, ⟨k, inside⟩, found⟩
      next => cases found
    · rintro ⟨callee, ⟨k, inside⟩, found⟩
      exact ⟨_, ⟨_, inside, rfl⟩, by rwa [if_pos ((calls (k, .call callee)).mpr ⟨callee, rfl⟩)]⟩

end Program

/-- An accepted text is read with its tables as it is read without them. -/
theorem Analysis.program_writes {text : String} {a : Analysis}
    (accepted : Analysis.ofText text = .ok a) (file : String)
    : Program.Writer.program file (.start text, .empty)
      = .ok (a.program.toTree file) (a.stop, a.program.tables) := by
  have tracks := Program.Writer.tracks_program file text
  unfold Program.Recorder.Tracks at tracks
  rw [(Analysis.ofText_eq_ok accepted).1] at tracks
  obtain ⟨b, t, written, rfl, rfl⟩ := tracks
  exact written

/-- For an accepted text without empty loops and branches, the table of next statements, as it is filled
while the text is read, holds exactly the steps that control can take, and both ends of a step are
statements of one procedure. -/
theorem Analysis.next_exact {text file : String} {a : Analysis}
    (accepted : Analysis.ofText text = .ok a)
    (filled : ∀ entry ∈ a.program.listing, entry.2.filled = true)
    : (∃ t, Program.Writer.program file (.start text, .empty) = .ok (a.program.toTree file) (a.stop, t)
        ∧ t.next.Same a.knowledge.next)
      ∧ (∀ row column, column ∈ a.knowledge.next.columnsOf row
        ↔ ∃ before after, a.program.Step before after
            ∧ row = showInt after ∧ column = showInt before)
      ∧ ∀ before after, a.program.Step before after →
          ∃ start procedure, (start, procedure) ∈ a.program.numbered
            ∧ (∃ s, (before, s) ∈ Stmt.listings start procedure.body)
            ∧ ∃ s, (after, s) ∈ Stmt.listings start procedure.body := by
  refine ⟨⟨_, Analysis.program_writes accepted file, ?_⟩, ?_, ?_⟩
  · rw [(Analysis.describes accepted).next]
    exact a.program.same_next
  · intro row column
    rw [(Analysis.describes accepted).next, Program.mem_columnsOf_nextGrid]
    simp only [Program.step_iff filled]
  · rintro before after ⟨start, procedure, entry, step⟩
    obtain ⟨inside, inside'⟩ := step.spans
    refine ⟨start, procedure, entry, ?_, ?_⟩
    · exact Stmt.exists_mem_listings_iff.mpr inside
    · exact Stmt.exists_mem_listings_iff.mpr inside'

set_option maxRecDepth 10000 in
/-- A conditional at the end of a branch at the end of a loop: all three of its ends lead back to the
loop, and the loop leads on to the statement after it. -/
theorem Analysis.next_exact_nested_ends
    : ∃ a, Analysis.ofText "procedure A \x7b while i \x7b if x then \x7b y = 1; \x7d else
          \x7b if z then \x7b y = 2; \x7d else \x7b call B; \x7d \x7d \x7d y = 3; \x7d
          procedure B \x7b y = 4; \x7d" = .ok a
      ∧ (∀ entry ∈ a.program.listing, entry.2.filled = true)
      ∧ a.program.Step 3 1 ∧ a.program.Step 5 1 ∧ a.program.Step 6 1 ∧ a.program.Step 1 7
      ∧ ¬ a.program.Step 7 8 := by
  refine exists_ok_of (fun a => a.program.listing.all (·.2.filled)
      && ([(3, 1), (5, 1), (6, 1), (1, 7)] : List (Nat × Nat)).all (fun ends =>
          (a.knowledge.next.columnsOf (showInt ends.2)).contains (showInt ends.1))
      && !(a.knowledge.next.columnsOf (showInt (8 : Nat))).contains (showInt (7 : Nat)))
    (by decide +kernel) fun a source evaluated => ?_
  simp only [Bool.and_eq_true, Bool.not_eq_true', List.all_eq_true, List.contains_eq_mem,
    decide_eq_true_eq, decide_eq_false_iff_not] at evaluated
  obtain ⟨⟨filled, present⟩, absent⟩ := evaluated
  have cells := (@Analysis.next_exact _ "code.txt" _ source filled).2.1
  have step {before after : Nat}
      (found : showInt before ∈ a.knowledge.next.columnsOf (showInt after))
      : a.program.Step before after := by
    obtain ⟨before', after', step, sameRow, sameColumn⟩ := (cells _ _).mp found
    obtain rfl : after = after' := by simpa using sameRow
    obtain rfl : before = before' := by simpa using sameColumn
    exact step
  refine ⟨filled, step (present (3, 1) (by simp)), step (present (5, 1) (by simp)),
    step (present (6, 1) (by simp)), step (present (1, 7) (by simp)), ?_⟩
  intro crossing
  exact absent ((cells _ _).mpr ⟨7, 8, crossing, rfl, rfl⟩)

/-- The tables of an accepted text, as they are filled while it is read and sorted afterwards, number its
statements, and the last number is the count at which reading stopped. -/
theorem Analysis.numbers_statements {text file : String} {a : Analysis}
    (accepted : Analysis.ofText text = .ok a)
    : (∃ t, Program.Writer.program file (.start text, .empty) = .ok (a.program.toTree file) (a.stop, t)
        ∧ t.statements = a.knowledge.statements ∧ t.procedures = a.knowledge.procedures)
      ∧ a.knowledge.Numbers a.program a.stop.line := by
  have describes := Analysis.describes accepted
  refine ⟨⟨_, Analysis.program_writes accepted file, ?_, ?_⟩, ?_⟩
  · rw [describes.statements, Program.tables_statements]
  · rw [describes.procedures, Program.tables_procedures]
  · obtain ⟨_, _, _, size, _⟩ := Analysis.tokens_of_accepted accepted
    exact size ▸ describes.numbers

set_option maxRecDepth 10000 in
/-- A conditional in a loop, a statement after the loop and two more procedures, the first of them
empty. -/
theorem Analysis.numbers_statements_nested
    : ∃ a, Analysis.ofText "procedure A \x7b while i \x7b if x then \x7b y = 1; call B; \x7d else
          \x7b y = 2; \x7d \x7d z = 3; \x7d procedure C \x7b \x7d
          procedure B \x7b y = 4; \x7d" = .ok a
      ∧ a.knowledge.Numbers a.program 7
      ∧ TransGen a.program.Parent 1 5 ∧ ¬ TransGen a.program.Parent 1 6 := by
  refine exists_ok_of (fun a => a.stop.line = 7
      ∧ a.knowledge.statements[0]? = some ⟨1, "WHILE", "i", 1, 5, none⟩)
    (by decide +kernel) fun a source ⟨count, loop⟩ => ?_
  have numbers := (@Analysis.numbers_statements _ "code.txt" _ source).2
  obtain ⟨s, -, record⟩ := numbers.records 0 _ loop
  have inside := (record.covers 5).mp (by decide)
  have outside := mt (record.covers 6).mpr (by decide)
  refine ⟨count ▸ numbers, ?_, ?_⟩
  · exact inside.resolve_left (by decide)
  · exact fun path => outside (.inr path)

/-- The tables of Parent and Follows of an accepted text, as they are filled while it is read, are the
shape of its program. -/
theorem Analysis.tables_shape {text file : String} {a : Analysis}
    (accepted : Analysis.ofText text = .ok a)
    : (∃ t, Program.Writer.program file (.start text, .empty) = .ok (a.program.toTree file) (a.stop, t)
        ∧ t.parent.Same a.knowledge.parent ∧ t.follows.Same a.knowledge.follows)
      ∧ a.knowledge.Shapes a.program := by
  have describes := Analysis.describes accepted
  refine ⟨⟨_, Analysis.program_writes accepted file, ?_, ?_⟩, describes.shapes⟩
  · rw [describes.parent]
    exact a.program.same_parent
  · rw [describes.follows]
    exact a.program.same_follows

set_option maxRecDepth 10000 in
/-- A conditional in a loop, and after the loop one with empty branches: the walk up from inside the
first one and the walk on through its second branch. -/
theorem Analysis.tables_shape_nested
    : ∃ a, Analysis.ofText "procedure A \x7b x = 1; while i \x7b x = 2; if x then \x7b y = 0; \x7d else
          \x7b y = 1; call B; z = 2; \x7d y = 3; \x7d if z then \x7b \x7d else \x7b \x7d \x7d" = .ok a
      ∧ a.knowledge.Shapes a.program
      ∧ Walk (parentOf? a.knowledge) 7 [4, 2]
      ∧ Walk a.knowledge.follows.firstColumn? 6 [7, 8] := by
  refine exists_ok_of (fun a => ParentStar.allAround a.knowledge 7 = [4, 2]
      ∧ FollowsStar.allAfter a.knowledge 6 = [7, 8]) (by decide +kernel) fun a source ⟨up, on⟩ => ?_
  have shapes := (@Analysis.tables_shape _ "code.txt" _ source).2
  exact ⟨shapes, up ▸ shapes.walkUp 7, on ▸ shapes.walkOn 6⟩

end ProgramQuery

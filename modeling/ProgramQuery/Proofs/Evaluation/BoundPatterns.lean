import ProgramQuery.Proofs.Evaluation.SelfReaching
import ProgramQuery.Proofs.Query.RoundTrip

/-! Patterns with a synonym for their variable. The statements are found as if any variable would do, and
nothing is recorded for the synonym. So a query for it lists all variables of the program, not only those
that stand at the head of such a statement.
-/

namespace ProgramQuery

open Text ProgramQuery.Relation Evaluation

/-- The query for the variables that a pattern of a kind of statements binds. -/
def boundPattern : Kind → Query
  | .loop => ⟨[⟨.loop, ["s"]⟩, ⟨.var, ["v"]⟩], some "v", [.pattern [.loop "s" (.synonym "v")]]⟩
  | .branch => ⟨[⟨.branch, ["s"]⟩, ⟨.var, ["v"]⟩], some "v", [.pattern [.branch "s" (.synonym "v")]]⟩
  | _ => ⟨[⟨.assignment, ["s"]⟩, ⟨.var, ["v"]⟩], some "v",
      [.pattern [.assignment "s" (.synonym "v") .anything]]⟩

/-- The query for the variables that assignments modify. -/
def modifiedBy : Query :=
  ⟨[⟨.assignment, ["s"]⟩, ⟨.var, ["v"]⟩], some "v",
    [.suchThat [⟨.modifies, .synonym "s", .synonym "v"⟩]]⟩

/-- The variable assigned to, or the variable that decides, at a statement of a kind. -/
def Program.Heads (p : Program) (kind : Kind) (e : Entity) : Prop :=
  ∃ line s, (line, s) ∈ p.listing ∧ kind.admits s = true ∧ e = .name s.head

section Holders

variable {kind : Kind} (holder : kind = .assignment ∨ kind = .loop ∨ kind = .branch)
include holder

theorem boundPattern_wellFormed {scope : Query.Scope} : (boundPattern kind).WellFormed scope := by
  rcases holder with rfl | rfl | rfl
  all_goals
    refine ⟨by decide, by decide, ?_, List.forall_mem_singleton.mpr ⟨nofun, ?_⟩⟩
    · intro x chosen
      cases chosen
      exact ⟨.var, rfl⟩
    · refine List.forall_mem_singleton.mpr ?_
      first | exact ⟨rfl, rfl⟩ | exact ⟨rfl, rfl, trivial⟩

namespace Evaluation

def patternSteps (found : Asked (Option EntitySet)) : EvalM String := do
  (do
    (do
      (do narrow "PATTERN" "s" (setCell (← ask found)))
      pure ⟨⟩)
    pure ⟨⟩)
  ask ((← sheet).answer (← read).knowledge)

def patternSheet (kind : Kind) : Sheet :=
  Sheet.declare { Sheet.start with selected := ("VARIABLE", "v") } "s" (.text kind.label)

variable {subject : Subject}

/-- All statements of the kind are found, whatever stands at their heads. -/
theorem exists_patternSteps
    : ∃ found, query (boundPattern kind).tree subject .start
        = patternSteps (.ok found) subject ⟨patternSheet kind, []⟩
      ∧ (found = some (.ofList (lines (subject.knowledge.linesOfKind kind.label)))
        ∨ found = none ∧ subject.knowledge.linesOfKind kind.label = []) := by
  rcases holder with rfl | rfl | rfl
  · have steps : query (boundPattern .assignment).tree subject .start
        = patternSteps (if (subject.knowledge.linesOfKind "ASSIGN").isEmpty then .ok none
          else .ok (some (.ofList (lines (subject.knowledge.linesOfKind "ASSIGN")))))
          subject ⟨patternSheet .assignment, []⟩ := rfl
    split at steps
    next empty => exact ⟨none, steps, .inr ⟨rfl, List.isEmpty_iff.mp empty⟩⟩
    next => exact ⟨_, steps, .inl rfl⟩
  · exact ⟨_, rfl, .inl rfl⟩
  · exact ⟨_, rfl, .inl rfl⟩

theorem Subject.reply_boundPattern (tight : Bool)
    : subject.reply ((boundPattern kind).print tight)
      = if subject.knowledge.linesOfKind kind.label = [] then "none"
        else Sheet.listed subject.knowledge.variableNames := by
  obtain ⟨stop, read, -⟩ := Query.Reading.exists_ofText_print
    (@boundPattern_wellFormed _ holder subject.knowledge.scope) tight
  obtain ⟨found, steps, all⟩ := @exists_patternSteps _ holder subject
  rw [Subject.reply_of_reading read, steps]
  by_cases empty : subject.knowledge.linesOfKind kind.label = []
  · rw [if_pos empty]
    rw [empty] at all
    rcases all with rfl | ⟨rfl, -⟩ <;> rcases holder with rfl | rfl | rfl <;> rfl
  · obtain rfl : found = _ := all.resolve_right fun nothing => empty nothing.2
    obtain ⟨n, listed⟩ := List.exists_mem_of_ne_nil _ empty
    have member : .line n ∈ (lines (subject.knowledge.linesOfKind kind.label)).eraseDups :=
      List.mem_eraseDups.mpr (List.mem_map_of_mem listed)
    obtain ⟨e, rest, some⟩ := List.exists_cons_of_ne_nil (List.ne_nil_of_mem member)
    rw [if_neg empty, EntitySet.ofList, some]
    rcases holder with rfl | rfl | rfl <;> rfl

end Evaluation

end Holders

theorem modifiedBy_wellFormed {scope : Query.Scope} : modifiedBy.WellFormed scope := by
  refine ⟨by decide, by decide, ?_, List.forall_mem_singleton.mpr ⟨nofun, ?_⟩⟩
  · intro x chosen
    cases chosen
    exact ⟨.var, rfl⟩
  · exact List.forall_mem_singleton.mpr ⟨.inl ⟨.assignment, rfl, rfl⟩, rfl⟩

namespace Evaluation

def modifiesSheet : Sheet :=
  ((Sheet.declare { Sheet.start with selected := ("VARIABLE", "v") } "s" (.text "ASSIGN")).declare "v"
    (.text "VARIABLE"))

variable {subject : Subject} {lefts rights : List Entity}

theorem exists_modifiesSteps
    : ∃ follow follow', query modifiedBy.tree subject .start
      = pairSteps "MODIFIES_s_v" "s" "v"
          ((effectModes subject.knowledge subject.knowledge.modifies).openOpen "ASSIGN" "VARIABLE") follow
          follow' subject ⟨modifiesSheet, []⟩ :=
  ⟨_, _, rfl⟩

theorem ends_modifiesSteps {follow follow' : String → EvalM Unit} (left : lefts ≠ [])
    (right : rights ≠ [])
    : Ends subject False ⟨modifiesSheet, []⟩
        (pairSteps "MODIFIES_s_v" "s" "v" (.ok (lefts, rights)) follow follow')
        fun answer _ => Lists answer (· ∈ rights) := by
  refine (ends_pairSteps (by decide) (by decide) (by decide) (by decide) left right ?_ rfl).mono ?_
  · rintro values values' x member
    obtain rfl | rfl : x = "s" ∨ x = "v" := by simpa using member
    all_goals rfl
  rintro _ _ rfl
  let kept : EntitySet := (EntitySet.ofList rights).inter (.ofList rights)
  refine ⟨kept.members, rfl, (nodup_eraseDups rights).filter _, fun e => ?_⟩
  simp [kept, Sheet.mem_inter, EntitySet.ofList]

end Evaluation

theorem KnowledgeBase.Describes.linesOfKind_eq_nil {p : Program} {knowledge : KnowledgeBase} {kind : Kind}
    (describes : knowledge.Describes p) (special : kind ≠ .statement)
    : knowledge.linesOfKind kind.label = [] ↔ ∀ e, ¬ p.Heads kind e := by
  rw [List.eq_nil_iff_forall_not_mem]
  constructor
  · rintro none e ⟨line, s, listed, admitted, -⟩
    exact none line ((describes.mem_linesOfKind special).mpr ⟨line, s, listed, admitted, rfl⟩)
  · rintro none n member
    obtain ⟨line, s, listed, admitted, -⟩ := (describes.mem_linesOfKind special).mp member
    exact none _ ⟨line, s, listed, admitted, rfl⟩

theorem Program.touches_assign {p : Program} {x v : String} {value : Expr}
    : p.Touches Stmt.Assigns (.assign x value) v ↔ v = x := by
  constructor
  · intro does
    cases does with
    | own does =>
      obtain ⟨_, same⟩ := does
      exact (Stmt.assign.inj same).1.symm
    | inside nested =>
      obtain ⟨_, -, part⟩ := Relation.TransGen.tail'_iff.mp nested
      cases part
  · rintro rfl
    exact .own ⟨value, rfl⟩

/-- The variables that assignments modify are those at their heads. -/
theorem Program.modified_iff {p : Program} {e : Entity}
    : (p.Fits .variable e ∧ ∃ x, p.Fits .assignment x ∧ p.TouchedFrom Stmt.Assigns x e)
      ↔ p.Heads .assignment e := by
  constructor
  · rintro ⟨-, x, fits, does⟩
    obtain ⟨v, rfl⟩ := does.name
    cases x with
    | missing => exact fits.elim
    | line n =>
      obtain ⟨line, s, listed, admitted, rfl⟩ := fits
      obtain ⟨line', s', listed', does, same⟩ := does
      obtain rfl : line' = line := Int.ofNat.inj same
      obtain rfl := Program.listing_unique listed listed'
      refine ⟨line', s, listed, admitted, ?_⟩
      cases s with
      | assign x value => rw [Program.touches_assign.mp does, Stmt.head]
      | _ => cases admitted
    | name x => rcases fits with ⟨⟨⟩, -⟩ | ⟨⟨⟩, -⟩
  · rintro ⟨line, s, listed, admitted, rfl⟩
    cases s with
    | assign x value =>
      have does : p.TouchedFrom Stmt.Assigns (.line line) (.name x) :=
        ⟨line, _, listed, Program.touches_assign.mpr rfl, rfl⟩
      exact ⟨does.fits fun _ _ => .inl, .line line, ⟨line, _, listed, rfl, rfl⟩, does⟩
    | _ => cases admitted

section Analysed

variable {text file : String} {a : Analysis} (accepted : Analysis.ofText text = .ok a)
  (short : a.program.Short) (tight : Bool)
include accepted short

/-- The sides of Modifies between assignments and variables. -/
theorem Analysis.exists_modifiesSides
    : ∃ lefts rights, (effectModes a.knowledge a.knowledge.modifies).openOpen "ASSIGN" "VARIABLE"
        = .ok (lefts, rights)
      ∧ (∀ e, e ∈ rights ↔ a.program.Heads .assignment e) ∧ (lefts = [] ↔ rights = []) := by
  obtain ⟨-, modifies, -⟩ := KnowledgeBase.ofProgram?_eq_some (Analysis.ofText_eq_ok accepted).2
  have lone {s : Stmt} (admitted : Kind.assignment.admits s = true) : s.isContainer = false := by
    cases s <;> first | rfl | cases admitted
  have place : Kind.assignment ≠ .variable := by decide
  have sides : Answers False (effectSides a.knowledge a.knowledge.modifies Kind.assignment.label) _ :=
    effectSides_exact modifies (Analysis.describes accepted) (Analysis.named accepted) short
      (fun _ _ => .inl) (fun _ s _ admitted kept => by simp [lone admitted] at kept) place
  unfold Answers at sides
  split at sides
  next found answered =>
    obtain ⟨lefts, rights⟩ := sides
    refine ⟨found.1, found.2, answered, fun e => (rights e).trans Program.modified_iff, ?_⟩
    simp only [List.eq_nil_iff_forall_not_mem, lefts, rights]
    constructor
    · rintro none y ⟨fits, x, fits', does⟩
      exact none x ⟨fits', y, fits, does⟩
    · rintro none x ⟨fits, y, fits', does⟩
      exact none y ⟨fits', x, fits, does⟩
  next => exact sides.elim

theorem Analysis.reply_modifiedBy [Order]
    : ((∀ e, ¬ a.program.Heads .assignment e) → (a.subject file).reply (modifiedBy.print tight) = "none")
      ∧ ((∃ e, a.program.Heads .assignment e) →
        Lists ((a.subject file).reply (modifiedBy.print tight)) (a.program.Heads .assignment)) := by
  obtain ⟨stop, read, -⟩ := Query.Reading.exists_ofText_print
    (@modifiedBy_wellFormed (a.subject file).knowledge.scope) tight
  obtain ⟨follow, follow', steps⟩ := @exists_modifiesSteps (a.subject file)
  obtain ⟨lefts, rights, sides, members, together⟩ := Analysis.exists_modifiesSides accepted short
  rw [show (a.subject file).knowledge = a.knowledge from rfl, sides] at steps
  constructor
  · intro none
    obtain rfl : rights = [] := List.eq_nil_iff_forall_not_mem.mpr fun e => none e ∘ (members e).mp
    obtain rfl := together.mpr rfl
    rw [Subject.reply_of_reading read, steps]
    rfl
  · rintro ⟨e, head⟩
    have right : rights ≠ [] := List.ne_nil_of_mem ((members e).mpr head)
    exact (Subject.reply_of_ends read steps (ends_modifiesSteps (mt together.mp right) right)).congr members

/-- A pattern does not bind its variable. With a statement of its kind in the program the reply lists
all variables. It is right where all of them stand at the head of such statements.
-/
theorem Analysis.reply_bound_variables [Order] {kind : Kind}
    (holder : kind = .assignment ∨ kind = .loop ∨ kind = .branch)
    : let reply := (a.subject file).reply ((boundPattern kind).print tight)
      let modified := (a.subject file).reply (modifiedBy.print tight)
      let heads := a.program.Heads
      ((∀ e, ¬ heads kind e) → reply = "none")
      ∧ ((∃ e, heads kind e) → Lists reply (a.program.Fits .variable))
      ∧ ((∃ e, heads kind e) → (∀ e, a.program.Fits .variable e → heads kind e) →
        Lists reply (heads kind))
      ∧ ((∀ e, ¬ heads .assignment e) → modified = "none")
      ∧ ((∃ e, heads .assignment e) → Lists modified (heads .assignment)) := by
  intro reply modified heads
  have describes := Analysis.describes accepted
  have special : kind ≠ .statement := by
    rcases holder with rfl | rfl | rfl <;> decide
  have replies : reply = if a.knowledge.linesOfKind kind.label = [] then "none"
      else Sheet.listed a.knowledge.variableNames := Subject.reply_boundPattern holder tight
  have all (some : ∃ e, heads kind e) : Lists reply (a.program.Fits .variable) := by
    obtain ⟨e, head⟩ := some
    rw [replies, if_neg fun empty => (describes.linesOfKind_eq_nil special).mp empty e head]
    exact describes.lists_variableNames
  refine ⟨fun none => ?_, all, fun some closed => (all some).congr fun e => ⟨closed e, ?_⟩,
    Analysis.reply_modifiedBy accepted short tight⟩
  · rw [replies, if_pos ((describes.linesOfKind_eq_nil special).mpr none)]
  · rintro ⟨line, s, listed, admitted, rfl⟩
    refine .inr ⟨rfl, line, s, listed, ?_⟩
    rcases holder with rfl | rfl | rfl <;> cases s <;> cases admitted
    · exact .inl ⟨_, rfl⟩
    · exact .inr (.inr (.inl ⟨_, rfl⟩))
    · exact .inr (.inr (.inr ⟨_, _, rfl⟩))

end Analysed

/-- Where the only variable is assigned to, it is listed rightly. -/
theorem Analysis.reply_bound_variables_of_one
    : ∃ a, Analysis.ofText "procedure p \x7b x = x + 1; \x7d" = .ok a
      ∧ (boundPattern .assignment).print true = "assign s ; variable v ; Select v pattern s ( v , _ )"
      ∧ Lists "x" (a.program.Heads .assignment) := by
  refine exists_ok_of (fun a => a.program.Short ∧ a.knowledge.variableNames = ["x"]
      ∧ (∃ entry ∈ a.program.listing, Kind.assignment.admits entry.2 = true ∧ entry.2.head = "x")
      ∧ (a.subject "code.txt").reply ((boundPattern .assignment).print true) = "x") (by decide +kernel) ?_
  rintro a accepted ⟨short, known, ⟨⟨line, s⟩, listed, admitted, head⟩, replies⟩
  have heads : a.program.Heads .assignment (.name "x") := ⟨line, s, listed, admitted, by rw [head]⟩
  have lists := (@Analysis.reply_bound_variables _ "code.txt" a accepted short true .asGiven _ (.inl rfl)).2.2.1
    ⟨_, heads⟩ fun e fits => by
      obtain ⟨x, rfl⟩ := fits.exists_name (.inr rfl)
      rw [← (Analysis.describes accepted).mem_variableNames, known] at fits
      exact List.mem_singleton.mp fits ▸ heads
  rw [replies] at lists
  exact ⟨by decide, lists⟩

/-- A variable that is only read is listed, although no assignment modifies it. -/
theorem Analysis.reply_bound_variables_read
    : ∃ a, Analysis.ofText "procedure p \x7b x = y; \x7d" = .ok a ∧ a.program.Short
      ∧ Lists ((a.subject "code.txt").reply ((boundPattern .assignment).print true))
        (a.program.Fits .variable)
      ∧ (a.subject "code.txt").reply (modifiedBy.print true) = "x"
      ∧ a.program.Fits .variable (.name "y") ∧ ¬ a.program.Heads .assignment (.name "y") := by
  refine exists_ok_of (fun a => a.program.Short
      ∧ a.knowledge.linesOfKind "ASSIGN" ≠ [] ∧ (∃ entry ∈ a.program.listing, "y" ∈ entry.2.ownUsed)
      ∧ (a.subject "code.txt").reply (modifiedBy.print true) = "x"
      ∧ ∀ entry ∈ a.program.listing, entry.2.head ≠ "y") (by decide +kernel) ?_
  rintro a accepted ⟨short, some, ⟨⟨line, s⟩, listed, used⟩, modified, others⟩
  have describes := Analysis.describes accepted
  have reads := (Stmt.mem_ownUsed s "y").mp used
  refine ⟨short, ?_, modified, .inr ⟨rfl, line, s, listed, .inr reads⟩, ?_⟩
  · rw [Subject.reply_boundPattern (.inl rfl)]
    exact (if_neg some).symm ▸ describes.lists_variableNames
  · rintro ⟨line, s, listed, -, same⟩
    exact others _ listed (Entity.name.inj same).symm

end ProgramQuery

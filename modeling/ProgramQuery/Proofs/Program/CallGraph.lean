import Mathlib
import ProgramQuery.Program.Calls
import ProgramQuery.Proofs.Grid
import ProgramQuery.Proofs.Lists
import ProgramQuery.Proofs.Program.Numbering

/-! Following calls to their end. The names reached from a name are listed exactly if no cycle of
calls can be reached from it.
-/

open Relation (ReflTransGen TransGen)

namespace ProgramQuery

/-- A procedure with the first name holds a call of the second name, however deep. -/
def Program.Calls (p : Program) (caller callee : String) : Prop :=
  ∃ procedure ∈ p.procedures,
    procedure.name = caller ∧ ∃ s ∈ procedure.body, Stmt.Within (.call callee) s

theorem Stmt.callee?_eq_some {s : Stmt} {callee : String}
    : s.callee? = some callee ↔ s = .call callee := by
  cases s <;> simp [Stmt.callee?]

theorem Stmt.mem_calleesOf {statements : List Stmt} {callee : String}
    : callee ∈ Stmt.calleesOf statements ↔ ∃ s ∈ statements, Stmt.Within (.call callee) s := by
  rw [← Stmt.mem_listings_iff_within 1]
  simp only [Stmt.calleesOf, List.mem_filterMap, Prod.exists, Stmt.callee?_eq_some]
  constructor
  · rintro ⟨n, s, member, rfl⟩
    exact ⟨n, member⟩
  · rintro ⟨n, member⟩
    exact ⟨n, _, member, rfl⟩

variable {p : Program} {caller : String}

private theorem mem_callPairs {callee : String}
    : (caller, callee) ∈ (p.procedures.flatMap fun procedure =>
          (Stmt.calleesOf procedure.body).map (procedure.name, ·))
      ↔ p.Calls caller callee := by
  simp only [List.mem_flatMap, List.mem_map, Prod.mk.injEq, Program.Calls]
  constructor
  · rintro ⟨procedure, declared, callee, called, rfl, rfl⟩
    exact ⟨procedure, declared, rfl, Stmt.mem_calleesOf.mp called⟩
  · rintro ⟨procedure, declared, rfl, called⟩
    exact ⟨procedure, declared, callee, Stmt.mem_calleesOf.mpr called, rfl, rfl⟩

theorem Program.mem_columnsOf_callGrid {callee : String}
    : callee ∈ p.callGrid.columnsOf caller ↔ p.Calls caller callee := by
  rw [Program.callGrid, Grid.mem_columnsOf_ofPairs, mem_callPairs]

theorem Program.mem_rowNames_callGrid
    : caller ∈ p.callGrid.rowNames ↔ ∃ callee, p.Calls caller callee := by
  simp only [Program.callGrid, Grid.mem_rowNames_ofPairs, mem_callPairs]

/-- Every name of a chain but the last is a source. -/
theorem sources_of_chain {rel : String → String → Prop} {rows names : List String}
    (sources : ∀ a b, rel a b → a ∈ rows) (chain : List.IsChain rel names)
    : ∀ row ∈ names.dropLast, row ∈ rows := by
  induction chain with
  | nil => simp
  | singleton => simp
  | cons_cons step _ ih =>
    intro row member
    rw [List.dropLast_cons_cons, List.mem_cons] at member
    rcases member with rfl | member
    · exact sources _ _ step
    · exact ih row member

namespace Grid

variable {calls : Grid Int} {name : String} {fuel : Nat}

def Leads (calls : Grid Int) (row column : String) : Prop :=
  column ∈ calls.columnsOf row

def Endless (calls : Grid Int) (name : String) : Prop :=
  ∃ other, ReflTransGen calls.Leads name other ∧ TransGen calls.Leads other other

/-- Where calls are followed to their end, exactly what is reached is listed, each name once. The
induction is on the longest chain of calls that is followed. -/
theorem calledWithin_exact {called : List String}
    (ends : calls.calledWithin fuel name = some called)
    : called.Nodup ∧ ∀ other, other ∈ called ↔ TransGen calls.Leads name other := by
  induction fuel generalizing name called with
  | zero => cases ends
  | succ fuel ih =>
    simp only [calledWithin] at ends
    split at ends
    · next further direct =>
      cases ends
      refine ⟨nodup_eraseDups _, ?_⟩
      have all := mem_of_forall₂ (mapM_eq_some_iff.mp direct)
      intro other
      rw [List.mem_eraseDups, List.mem_append, List.mem_flatten]
      constructor
      · rintro (step | ⟨reached, found, member⟩)
        · exact .single step
        · obtain ⟨next, step, below⟩ := all.2 reached found
          exact .head step (((ih below).2 other).mp member)
      · intro path
        obtain ⟨next, step, rest⟩ := TransGen.head'_iff.mp path
        rcases Relation.reflTransGen_iff_eq_or_transGen.mp rest with rfl | rest
        · exact Or.inl step
        · obtain ⟨reached, found, below⟩ := all.1 next step
          exact Or.inr ⟨reached, found, ((ih below).2 other).mpr rest⟩
    · cases ends

/-- No cycle can be reached from a name whose calls are followed to their end. -/
theorem not_endless_of_calledWithin {called : List String}
    (ends : calls.calledWithin fuel name = some called)
    : ¬ calls.Endless name := by
  induction fuel generalizing name called with
  | zero => cases ends
  | succ fuel ih =>
    simp only [calledWithin] at ends
    split at ends
    · next further direct =>
      have all := mem_of_forall₂ (mapM_eq_some_iff.mp direct)
      rintro ⟨other, path, cycle⟩
      -- one step along the way to the cycle, or else along the cycle itself
      have step : ∃ next, calls.Leads name next ∧ ReflTransGen calls.Leads next other := by
        rcases ReflTransGen.cases_head path with rfl | step
        · exact TransGen.head'_iff.mp cycle
        · exact step
      obtain ⟨next, leads, path⟩ := step
      obtain ⟨reached, _, below⟩ := all.1 next leads
      exact ih below ⟨other, path, cycle⟩
    · cases ends

/-- Where calls are not followed to their end, there is a chain of calls as long as the fuel. -/
theorem exists_chain_of_calledWithin (stuck : calls.calledWithin fuel name = none)
    : ∃ path : List String, path.length = fuel ∧ List.IsChain calls.Leads (name :: path) := by
  induction fuel generalizing name with
  | zero => exact ⟨[], rfl, .singleton _⟩
  | succ fuel ih =>
    simp only [calledWithin] at stuck
    split at stuck
    · cases stuck
    · next failed =>
      obtain ⟨next, leads, stuck⟩ := exists_eq_none_of_mapM failed
      obtain ⟨path, length, chain⟩ := ih stuck
      exact ⟨next :: path, by simp [length], .cons_cons leads chain⟩

/-- A chain of calls that is longer than the table repeats a name. -/
theorem endless_of_calledWithin (stuck : calls.calledWithin (calls.size + 1) name = none)
    : calls.Endless name := by
  obtain ⟨path, length, chain⟩ := exists_chain_of_calledWithin stuck
  by_contra ending
  have onward : List.Pairwise (TransGen calls.Leads) (name :: path) :=
    (chain.imp fun _ _ leads => TransGen.single leads).pairwise
  have reached : ∀ other ∈ name :: path, ReflTransGen calls.Leads name other := by
    intro other member
    rcases List.mem_cons.mp member with rfl | member
    · exact .refl
    · exact ((List.pairwise_cons.mp onward).1 other member).to_reflTransGen
  have unique : (name :: path).Nodup := by
    refine onward.imp_of_mem ?_
    rintro other next member _ cycle rfl
    exact ending ⟨other, reached other member, cycle⟩
  have bound := (unique.sublist (List.dropLast_sublist _)).length_le_of_subset
    (sources_of_chain (fun _ _ => mem_rowNames_of_mem_columnsOf) chain)
  rw [List.length_dropLast, List.length_cons, length, length_rowNames] at bound
  omega

/-- The names reached are listed unless a cycle can be reached. -/
theorem called?_eq_none_iff : calls.called? name = none ↔ calls.Endless name := by
  constructor
  · exact endless_of_calledWithin
  · intro endless
    cases ends : calls.called? name with
    | none => rfl
    | some called => exact absurd endless (not_endless_of_calledWithin ends)

/-- A list that is complete stays the same however much further calls could be followed. -/
theorem calledWithin_mono {more : Nat} {called : List String} (le : fuel ≤ more)
    (ends : calls.calledWithin fuel name = some called)
    : calls.calledWithin more name = some called := by
  induction fuel generalizing name called more with
  | zero => cases ends
  | succ fuel ih =>
    obtain ⟨more, rfl⟩ := Nat.exists_eq_add_of_lt le
    simp only [calledWithin] at ends ⊢
    split at ends
    · next further direct =>
      have same : (calls.columnsOf name).mapM (calls.calledWithin (fuel + more)) = some further :=
        mapM_eq_some_iff.mpr ((mapM_eq_some_iff.mp direct).imp fun _ _ => ih (by omega))
      rw [same]
      exact ends
    · cases ends

/-- Following the calls from a name comes to an end, at whatever depth, exactly if no cycle of calls can
be reached from it. The depth that is allowed for is then enough, and the list holds what is reached by one
or more calls, each name once.
-/
theorem called?_ends_iff (calls : Grid Int) (name : String)
    : ((∃ depth, (calls.calledWithin depth name).isSome) ↔ ¬ calls.Endless name)
      ∧ (calls.called? name = none ↔ calls.Endless name)
      ∧ ∀ depth called, calls.calledWithin depth name = some called →
        calls.called? name = some called ∧ called.Nodup
        ∧ ∀ other, other ∈ called ↔ TransGen calls.Leads name other := by
  refine ⟨⟨?_, fun ending => ⟨calls.size + 1, ?_⟩⟩, called?_eq_none_iff, fun depth called ends => ?_⟩
  · rintro ⟨depth, ends⟩
    obtain ⟨called, ends⟩ := Option.isSome_iff_exists.mp ends
    exact not_endless_of_calledWithin ends
  · rw [← Option.ne_none_iff_isSome]
    exact fun stuck => ending (endless_of_calledWithin stuck)
  · refine ⟨?_, calledWithin_exact ends⟩
    cases settled : calls.called? name with
    | none => exact absurd (called?_eq_none_iff.mp settled) (not_endless_of_calledWithin ends)
    | some called' =>
      have first := calledWithin_mono (Nat.le_max_left depth (calls.size + 1)) ends
      have second := calledWithin_mono (Nat.le_max_right depth (calls.size + 1)) settled
      rw [← second, first]

/-- A procedure that is called twice is listed once, and a cycle elsewhere does no harm. -/
theorem called?_ends_beside_cycle
    : let calls := Grid.ofPairs [("a", "b"), ("a", "c"), ("b", "d"), ("c", "d"), ("e", "e")]
      calls.called? "a" = some ["b", "c", "d"] ∧ TransGen calls.Leads "a" "d" ∧ calls.Endless "e" := by
  intro calls
  have ends : calls.calledWithin 3 "a" = some ["b", "c", "d"] := by decide +kernel
  have stuck : calls.called? "e" = none := by decide +kernel
  obtain ⟨called, -, reached⟩ := (called?_ends_iff calls "a").2.2 3 _ ends
  exact ⟨called, (reached "d").mp (by decide), (called?_ends_iff calls "e").2.1.mp stuck⟩

end Grid

theorem Program.leads_callGrid : p.callGrid.Leads = p.Calls := by
  funext caller callee
  exact propext Program.mem_columnsOf_callGrid

/-- The procedures reached from a procedure by one or more calls are listed, each once. -/
theorem Program.called?_exact {name : String} {called : List String}
    (ends : p.callGrid.called? name = some called)
    : called.Nodup ∧ ∀ other, other ∈ called ↔ TransGen p.Calls name other := by
  rw [← Program.leads_callGrid]
  exact Grid.calledWithin_exact ends

/-- Without a cycle of calls the procedures reached can be listed. -/
theorem Program.exists_called? (acyclic : ∀ name, ¬ TransGen p.Calls name name)
    (name : String)
    : ∃ called, p.callGrid.called? name = some called := by
  rw [← Option.ne_none_iff_exists']
  intro stuck
  obtain ⟨other, _, cycle⟩ := Grid.called?_eq_none_iff.mp stuck
  rw [Program.leads_callGrid] at cycle
  exact acyclic other cycle

end ProgramQuery

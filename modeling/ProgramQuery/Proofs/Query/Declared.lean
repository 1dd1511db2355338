import ProgramQuery.Proofs.Query.Readings

/-! The synonyms of a query and their declarations. Only what is selected is not looked at closely: a
name that was never declared is selected with no type.
-/

namespace ProgramQuery.Query

open ProgramQuery.Tree

/-- The nodes where a synonym can stand in a clause: both sides of a comparison, the subject of a pattern
and what may be a variable behind it, and the arguments of a relation. -/
def Parser.Clauses.places (found : Parser.Clauses) : List Tree :=
  found.withs.flatMap children ++ found.patterns.flatMap (·.children.take 2)
    ++ found.relations.flatMap children

theorem Parser.Clauses.Shaped.places {fixed : Option (Keyed (Option String))} {found : Parser.Clauses}
    (shaped : found.Shaped fixed)
    : ∀ t ∈ found.places, Placed fixed t := by
  simp only [Clauses.places, List.forall_mem_append, List.mem_flatMap]
  refine ⟨⟨?_, ?_⟩, ?_⟩
  · rintro t ⟨c, listed, inside⟩
    exact (shaped.withs c listed).2 t inside
  · rintro t ⟨c, listed, inside⟩
    exact (shaped.patterns c listed).2 t inside
  · rintro t ⟨c, listed, inside⟩
    exact (shaped.relations c listed).2 t inside

/-- In every query that can be read, each node of a clause where a synonym can stand is
a synonym with the type that was declared for it, or a token that is no name. What is selected is
`BOOLEAN`, or a synonym with its declared type, or a name that was not declared and has no type.
-/
theorem Reading.synonyms_declared {scope : Scope} {text : String} {reading : Reading}
    (read : Reading.ofText scope text = .ok reading)
    : ∃ result found, reading.tree = Parser.Clauses.query found result
      ∧ Parser.Selects reading.stop.declarations result
      ∧ ∀ t ∈ found.places, Declared reading.stop.declarations t ∨ IsToken t := by
  obtain ⟨result, s₁, found, s₂, run, tree⟩ := Reading.exists_run read
  exact ⟨result, found, tree, run.isResult.2, fun t place => run.shaped.places t place _ rfl⟩

set_option maxRecDepth 10000 in
/-- A statement and a variable, both declared. -/
theorem Reading.synonyms_declared_uses
    : ∃ reading, Reading.ofText ⟨[], ["x"], 1⟩ "stmt s; variable v; Select s such that Uses(s, v)"
        = .ok reading
      ∧ reading.stop.declarations = [("s", some "STMT"), ("v", some "VARIABLE")]
      ∧ ∃ result found, reading.tree = Parser.Clauses.query found result
        ∧ Parser.Selects reading.stop.declarations result
        ∧ ∀ t ∈ found.places, Declared reading.stop.declarations t ∨ IsToken t := by
  have evaluated : ((Reading.ofText ⟨[], ["x"], 1⟩
      "stmt s; variable v; Select s such that Uses(s, v)").toOption.any fun reading =>
        decide (reading.stop.declarations = [("s", some "STMT"), ("v", some "VARIABLE")])) = true := by
    decide +kernel
  obtain ⟨reading, read, declared⟩ := exists_ok evaluated
  exact ⟨reading, read, of_decide_eq_true declared, Reading.synonyms_declared read⟩

set_option maxRecDepth 10000 in
/-- A name is selected although nothing is declared. -/
theorem Reading.selects_undeclared
    : (Reading.ofText ⟨[], [], 0⟩ "Select x").toOption.any (fun reading =>
        decide (reading.tree = .node "QUERY" "query" 0 [.node "RESULT" "" 0 [.leaf "" "x"]])
        && decide (reading.stop.declarations = [])) = true := by
  decide +kernel

end ProgramQuery.Query

import ProgramQuery.Clause.Pattern
import ProgramQuery.Clause.With

/-! The trees of patterns and comparisons, taken apart. -/

namespace ProgramQuery

open ProgramQuery.Relation

variable {kb : KnowledgeBase} {type kind text x : String} {ts : List Tree}

theorem candidates_node {title : String}
    : Clause.candidates kb (.node title "" 0 (.leaf type x :: .leaf kind text :: ts))
      = .ok (if kind = "VARIABLE" ∨ kind = "EVERYTHING" then kb.linesOfKind type
          else kb.linesOfKindAndValue type text) := by
  unfold Clause.candidates
  split <;> simp_all [Tree.part, Tree.leaf, Tree.label, Tree.text, Tree.heading, bind, Except.bind,
    pure, Except.pure]

theorem withValues_node {line line' : Int}
    {attributes : List Tree}
    : Clause.withValues kb (.node "ATTR" "" 0 [.node type x line attributes, .node kind text line' ts])
      = if kind = "INTEGER" then do return .ofList (← Clause.equalsNumber kb type text)
        else if kind = "IDENT_QUOTE" then return .ofList (Clause.equalsName kb type text)
        else if kind = "CONSTANT" then do return .ofList (← Clause.equalsConstant kb type x)
        else pure (.ofList
          (names (common (Clause.attributeNames kb type) (Clause.attributeNames kb kind)))) :=
  rfl

end ProgramQuery

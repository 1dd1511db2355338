import ProgramQuery.Program.Outline
import ProgramQuery.Proofs.Program.Numbering
import ProgramQuery.Tree.Search

/-! The tree of a program holds the statements under their numbers, in the order of the text, and every
node of an assignment carries the number of the assignment.
-/

namespace ProgramQuery

mutual

/-- The nodes of a tree, each before its children and these from first to last. -/
def Tree.nodes : Tree → List Tree
  | .missing => []
  | .node label text line children => .node label text line children :: Tree.nodesOf children

def Tree.nodesOf : List Tree → List Tree
  | [] => []
  | t :: rest => t.nodes ++ Tree.nodesOf rest

end

def Tree.isStatement (t : Tree) : Bool :=
  t.label?.any ["ASSIGN", "CALL", "WHILE", "IF"].contains

theorem Tree.isStatement_node (label text : String) (line : Int) (children : List Tree)
    : (Tree.node label text line children).isStatement
      = ["ASSIGN", "CALL", "WHILE", "IF"].contains label :=
  rfl

def Tree.statementNodes (t : Tree) : List Tree :=
  t.nodes.filter Tree.isStatement

/-- All nodes of an expression carry one number, and none is that of a statement. -/
theorem Expr.line_of_mem_nodes (line : Int) (e : Expr)
    : ∀ t ∈ (e.toTree line).nodes, t.line? = some line ∧ t.isStatement = false := by
  induction e with
  | name x =>
    intro t member
    obtain rfl := List.mem_singleton.mp member
    exact ⟨rfl, rfl⟩
  | literal digits =>
    intro t member
    obtain rfl := List.mem_singleton.mp member
    exact ⟨rfl, rfl⟩
  | binary op left right ihLeft ihRight =>
    intro t member
    simp only [Expr.toTree, Tree.nodes, Tree.nodesOf, List.append_nil, List.mem_cons,
      List.mem_append] at member
    rcases member with rfl | member | member
    · cases op <;> exact ⟨rfl, rfl⟩
    · exact ihLeft t member
    · exact ihRight t member

theorem Expr.filter_nodes (line : Int) (e : Expr)
    : (e.toTree line).nodes.filter Tree.isStatement = [] := by
  rw [List.filter_eq_nil_iff]
  intro t member
  simp [(Expr.line_of_mem_nodes line e t member).2]

mutual

/-- The statement nodes of a statement are those of the statements listed for it. -/
theorem Stmt.statementNodes (line : Nat) (s : Stmt)
    : (s.toTree line).nodes.filter Tree.isStatement
      = (s.listing line).map fun entry => entry.2.toTree entry.1 := by
  cases s with
  | assign target value =>
    simp [Stmt.toTree, Tree.nodes, Tree.nodesOf, Tree.isStatement_node, Expr.filter_nodes,
      Stmt.listing]
  | call callee =>
    simp [Stmt.toTree, Tree.nodes, Tree.nodesOf, Tree.isStatement_node, Stmt.listing]
  | loop condition body =>
    simp [Stmt.toTree, Tree.nodes, Tree.nodesOf, Tree.isStatement_node, Stmt.listing,
      Stmt.listTree, Stmt.statementNodesOf (line + 1) body]
  | branch condition thenBody elseBody =>
    simp [Stmt.toTree, Tree.nodes, Tree.nodesOf, Tree.isStatement_node, Stmt.listing,
      Stmt.listTree, Stmt.statementNodesOf (line + 1) thenBody,
      Stmt.statementNodesOf (line + 1 + Stmt.sizes thenBody) elseBody]

theorem Stmt.statementNodesOf (line : Nat) (statements : List Stmt)
    : (Tree.nodesOf (Stmt.toTrees line statements)).filter Tree.isStatement
      = (Stmt.listings line statements).map fun entry => entry.2.toTree entry.1 := by
  cases statements with
  | nil => rfl
  | cons s rest =>
    simp only [Stmt.toTrees, Tree.nodesOf, List.filter_append, Stmt.statementNodes line s,
      Stmt.statementNodesOf (line + s.size) rest, Stmt.listings, List.map_append]

end

theorem Procedure.statementNodes (line : Nat) (procedure : Procedure)
    : (procedure.toTree line).statementNodes
      = (Stmt.listings line procedure.body).map fun entry => entry.2.toTree entry.1 := by
  simp [Tree.statementNodes, Procedure.toTree, Stmt.listTree, Tree.nodes, Tree.nodesOf,
    Tree.isStatement_node, Stmt.statementNodesOf]

/-- The statement nodes of a program are its statements under their numbers, in order. -/
theorem Program.statementNodes (p : Program) (title : String)
    : (p.toTree title).statementNodes = p.listing.map fun entry => entry.2.toTree entry.1 := by
  have gather (entries : List (Nat × Procedure))
      : (Tree.nodesOf (entries.map fun entry => entry.2.toTree entry.1)).filter Tree.isStatement
        = (entries.flatMap fun entry => Stmt.listings entry.1 entry.2.body).map
            fun entry => entry.2.toTree entry.1 := by
    induction entries with
    | nil => rfl
    | cons entry rest ih =>
      rw [List.map_cons, Tree.nodesOf, List.filter_append, ih, List.flatMap_cons, List.map_append,
        ← Procedure.statementNodes, Tree.statementNodes]
  exact gather p.numbered

/-- The statements of a program's tree are numbered from one on, in order. -/
theorem Program.lines_of_statementNodes (p : Program) (title : String)
    : (p.toTree title).statementNodes.map Tree.line?
      = (List.range' 1 p.size).map fun (n : Nat) => some (n : Int) := by
  have line (line : Nat) (s : Stmt) : (s.toTree line).line? = some (line : Int) := by
    cases s <;> rfl
  rw [Program.statementNodes, ← Program.listing_lines, List.map_map, List.map_map]
  exact List.map_congr_left fun entry _ => line entry.1 entry.2

/-- Every node below an assignment carries the number of the assignment. -/
theorem Program.line_of_assignment (p : Program) (title : String) {t u : Tree}
    (member : t ∈ (p.toTree title).nodes) (assignment : t.label? = some "ASSIGN")
    (below : u ∈ t.nodes)
    : u.line? = t.line? := by
  have statement : t ∈ (p.toTree title).statementNodes :=
    List.mem_filter.mpr ⟨member, by simp [Tree.isStatement, assignment]⟩
  rw [Program.statementNodes] at statement
  obtain ⟨⟨line, s⟩, _, rfl⟩ := List.mem_map.mp statement
  cases s with
  | assign target value =>
    simp only [Stmt.toTree, Tree.nodes, Tree.nodesOf, List.append_nil, List.mem_cons,
      List.mem_append, List.not_mem_nil, or_false] at below
    rcases below with rfl | rfl | below
    · rfl
    · rfl
    · exact (Expr.line_of_mem_nodes line value u below).1
  | call callee => simp [Stmt.toTree, Tree.label?] at assignment
  | loop condition body => simp [Stmt.toTree, Tree.label?] at assignment
  | branch condition thenBody elseBody => simp [Stmt.toTree, Tree.label?] at assignment

end ProgramQuery

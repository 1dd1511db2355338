import ProgramQuery.Fault
import ProgramQuery.Position

/-! Undirected graphs whose edges may be repeated, and a search for cycles in them. -/

namespace ProgramQuery

/-- The neighbours of each vertex that was ever looked at, in the order of the edges. -/
structure Links where
  size : Nat
  entries : List (Int × List Int)
  deriving Repr, DecidableEq

namespace Links

def start (size : Nat) : Links := ⟨size, []⟩

def neighbours (g : Links) (v : Int) : List Int :=
  (g.entries.lookup v).getD []

def touch (g : Links) (v : Int) : Links :=
  if (g.entries.lookup v).isSome then g else { g with entries := g.entries ++ [(v, [])] }

def push (g : Links) (v w : Int) : Links :=
  let g := g.touch v
  { g with entries := g.entries.map fun (u, ns) => if u = v then (u, ns ++ [w]) else (u, ns) }

/-- An edge from a vertex to itself is recorded on both sides as well. -/
def addEdge (g : Links) (v w : Int) : Links :=
  (g.push v w).push w v

/-- A search under way: the graph, and for each vertex whether it was reached. -/
structure Search where
  graph : Links
  visited : List Bool
  deriving Repr, DecidableEq

abbrev SearchM := EStateM Fault Search

def visit (v : Int) : SearchM Unit := do
  let s ← get
  match position? s.visited.length v with
  | some place => set { s with visited := s.visited.set place true }
  | none => throw .noSuchPart

def wasVisited (v : Int) : SearchM Bool := do
  let s ← get
  match (position? s.visited.length v).bind fun place => s.visited[place]? with
  | some b => return b
  | none => throw .noSuchPart

/-- The neighbours of a vertex, which is recorded from then on. -/
def look (v : Int) : SearchM (List Int) := do
  modify fun s => { s with graph := s.graph.touch v }
  return (← get).graph.neighbours v

/-- Whether some neighbour leads to a cycle, where `descend` searches from a fresh one. A vertex that
was reached before closes a cycle unless the search came from there. -/
def someNeighbour (descend : Int → SearchM Bool) (parent : Int) : List Int → SearchM Bool
  | [] => return false
  | w :: rest => do
      if ← wasVisited w then
        if parent ≠ w then return true else someNeighbour descend parent rest
      else if ← descend w then return true
      else someNeighbour descend parent rest

/-- Searches from a vertex that was reached from `parent`. Each step down reaches a fresh vertex, so
the number of vertices is enough fuel. -/
def cycleFrom : Nat → Int → Int → SearchM Bool
  | 0, _, _ => throw .exhausted
  | fuel + 1, v, parent => do
      visit v
      someNeighbour (fun w => cycleFrom fuel w v) parent (← look v)

def cycleFromAny (fuel : Nat) : List Int → SearchM Bool
  | [] => return false
  | v :: rest => do
      if ← wasVisited v then cycleFromAny fuel rest
      else if ← cycleFrom fuel v (-1) then return true
      else cycleFromAny fuel rest

def search (g : Links) (v : Int) (visited : List Bool) (parent : Int)
    : EStateM.Result Fault Search Bool :=
  cycleFrom (visited.length + 1) v parent ⟨g, visited⟩

def searchAll (g : Links) : EStateM.Result Fault Search Bool :=
  cycleFromAny (g.size + 1) ((List.range g.size).map fun (i : Nat) => (i : Int))
    ⟨g, List.replicate g.size false⟩

/-- Whether there is a cycle among the vertices. Vertices outside the graph are not answered for. -/
def hasCycle (g : Links) : Asked Bool :=
  match g.searchAll with
  | .ok found _ => .ok found
  | .error fault _ => .error fault

end Links

end ProgramQuery

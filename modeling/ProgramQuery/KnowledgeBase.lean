import ProgramQuery.Program.Effects
import ProgramQuery.Program.Nesting
import ProgramQuery.Program.Parser.Statement

/-! What is recorded about a program before it is queried. -/

namespace ProgramQuery

open Text

structure ProcedureEntry where
  name : String
  start : Int
  finish : Int
  deriving DecidableEq, Repr

/-- A conditional also records the last number of either branch, zero for an empty one. -/
structure BranchEnds where
  thenEnd : Int
  elseEnd : Int
  deriving DecidableEq, Repr

structure StatementEntry where
  line : Int
  kind : String
  value : String
  start : Int
  finish : Int
  branchEnds : Option BranchEnds
  deriving DecidableEq, Repr

/-- The rows of `next` are statements and their columns the statements before them; the rows of
all other line tables come first in the relation. -/
structure KnowledgeBase where
  variableNames : List String
  procedures : List ProcedureEntry
  statements : List StatementEntry
  constants : Grid (List Int)
  uses : Grid Int
  modifies : Grid Int
  parent : Grid Int
  follows : Grid Int
  calls : Grid Int
  next : Grid Int
  deriving Repr

def Stmt.branchEnds? (line : Nat) : Stmt → Option BranchEnds
  | .branch _ thenBody elseBody =>
    let thenSize := Stmt.sizes thenBody
    let elseSize := Stmt.sizes elseBody
    some
      { thenEnd := if thenSize = 0 then 0 else line + thenSize
        elseEnd := if elseSize = 0 then 0 else line + thenSize + elseSize }
  | _ => none

def Stmt.entry (line : Nat) (s : Stmt) : StatementEntry :=
  { line, kind := s.kind, value := s.head, start := line, finish := line + s.size - 1,
    branchEnds := s.branchEnds? line }

namespace Program

def statementEntries (p : Program) : List StatementEntry :=
  p.listing.map fun (line, s) => s.entry line

/-- An empty procedure finishes before it starts. -/
def procedureEntries (p : Program) : List ProcedureEntry :=
  p.numbered.map fun (line, procedure) =>
    ⟨procedure.name, line, line + Stmt.sizes procedure.body - 1⟩

/-- All variables in the order of their characters. -/
def variableNames (p : Program) : List String :=
  (p.listing.flatMap fun (_, s) => s.ownModified ++ s.ownUsed).eraseDups.mergeSort
    (fun a b => decide (a ≤ b))

def literalsOf : Stmt → List String
  | .assign _ value => value.literals
  | _ => []

/-- Each literal with the numbers of the statements it occurs in, once for each occurrence. -/
def constants (p : Program) : Grid (List Int) :=
  (p.listing.flatMap fun (line, s) => (literalsOf s).map (line, ·)).foldl
    (fun g (entry : Nat × String) =>
      g.put entry.2 "lines" (((g.cell? entry.2 "lines").getD []) ++ [(entry.1 : Int)]))
    .empty

def parentGrid (p : Program) : Grid Int :=
  p.families.foldl
    (fun g (line, children) =>
      (g.addRow (showInt line)).putAll (showInt line) (children.map fun (n : Nat) => showInt n) 1)
    .empty

def followsGrid (p : Program) : Grid Int :=
  .ofLines p.neighbours

def nextGrid (p : Program) : Grid Int :=
  .ofLines (p.steps.map fun (before, after) => (after, before))

end Program

def KnowledgeBase.ofProgram? (p : Program) : Option KnowledgeBase := do
  let uses ← p.uses?
  let modifies ← p.modifies?
  return {
    variableNames := p.variableNames
    procedures := p.procedureEntries
    statements := p.statementEntries
    constants := p.constants
    uses
    modifies
    parent := p.parentGrid
    follows := p.followsGrid
    calls := p.callGrid
    next := p.nextGrid }

/-- A program that has been read, where reading stopped, and what is known about it. -/
structure Analysis where
  program : Program
  stop : Program.ParserState
  knowledge : KnowledgeBase

def Analysis.ofText (text : String) : Except Program.Failure Analysis :=
  match Program.Parser.program (.start text) with
  | .error failure _ => .error failure
  | .ok program stop =>
    match KnowledgeBase.ofProgram? program with
    | some knowledge => .ok { program, stop, knowledge }
    | none => .error .endlessCalls

end ProgramQuery

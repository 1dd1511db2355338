import ProgramQuery.Proofs.Program.Effects
import ProgramQuery.Proofs.Program.Nesting
import ProgramQuery.Relation.Lookup

/-! What the synonyms of a query can stand for in a program, and which of these things each relation
holds between.
-/

open Relation (ReflTransGen TransGen)

namespace ProgramQuery

open Text ProgramQuery.Relation

/-- What a synonym is declared as. -/
inductive Kind where
  | statement
  | assignment
  | loop
  | branch
  | call
  | procedure
  | variable
  deriving DecidableEq

namespace Kind

def label : Kind → String
  | .statement => "STMT"
  | .assignment => "ASSIGN"
  | .loop => "WHILE"
  | .branch => "IF"
  | .call => "CALL"
  | .procedure => "PROCEDURE"
  | .variable => "VARIABLE"

def admits : Kind → Stmt → Bool
  | .statement, _ => true
  | .assignment, .assign _ _ => true
  | .loop, .loop _ _ => true
  | .branch, .branch _ _ _ => true
  | .call, .call _ => true
  | _, _ => false

end Kind

/-- What a synonym of a kind can stand for. -/
def Program.Fits (p : Program) (kind : Kind) : Entity → Prop
  | .missing => False
  | .line n => ∃ line s, (line, s) ∈ p.listing ∧ kind.admits s = true ∧ ((line : Nat) : Int) = n
  | .name x =>
    (kind = .procedure ∧ ∃ procedure ∈ p.procedures, procedure.name = x)
    ∨ (kind = .variable ∧ ∃ line s, (line, s) ∈ p.listing ∧ (s.Assigns x ∨ s.Reads x))

def onLines (rel : Nat → Nat → Prop) : Entity → Entity → Prop
  | .line m, .line n => ∃ a b : Nat, rel a b ∧ (a : Int) = m ∧ (b : Int) = n
  | _, _ => False

def onNames (rel : String → String → Prop) : Entity → Entity → Prop
  | .name a, .name b => rel a b
  | _, _ => False

/-- Whether a statement or a procedure touches a variable. -/
def Program.TouchedFrom (p : Program) (own : Stmt → String → Prop) : Entity → Entity → Prop
  | .line n, .name v =>
    ∃ line s, (line, s) ∈ p.listing ∧ p.Touches own s v ∧ ((line : Nat) : Int) = n
  | .name x, .name v => p.ProcedureTouches own x v
  | _, _ => False

/-- What the relations of a query mean. The starred forms of Modifies and Uses hold of nothing. -/
def Program.Holds (p : Program) : RelationName → Entity → Entity → Prop
  | .follows => onLines p.Follows
  | .followsStar => onLines (TransGen p.Follows)
  | .parent => onLines p.Parent
  | .parentStar => onLines (TransGen p.Parent)
  | .modifies => p.TouchedFrom Stmt.Assigns
  | .modifiesStar => fun _ _ => False
  | .uses => p.TouchedFrom Stmt.Reads
  | .usesStar => fun _ _ => False
  | .calls => onNames p.Calls
  | .callsStar => onNames (TransGen p.Calls)
  | .next => onLines p.Step
  | .nextStar => onLines (TransGen p.Step)

variable {rel : Nat → Nat → Prop}

theorem onLines_line {a b : Nat}
    : onLines rel (.line a) (.line b) ↔ rel a b := by
  simp only [onLines, Int.natCast_inj]
  exact ⟨fun ⟨_, _, holds, same, same'⟩ => same ▸ same' ▸ holds, fun holds => ⟨a, b, holds, rfl, rfl⟩⟩

variable {x y : Entity}

theorem onLines.lines (holds : onLines rel x y)
    : ∃ a b : Nat, rel a b ∧ x = .line a ∧ y = .line b := by
  match x, y, holds with
  | .line _, .line _, ⟨a, b, holds, rfl, rfl⟩ => exact ⟨a, b, holds, rfl, rfl⟩

theorem onNames.names {rel : String → String → Prop} (holds : onNames rel x y)
    : ∃ a b, rel a b ∧ x = .name a ∧ y = .name b := by
  match x, y, holds with
  | .name a, .name b, holds => exact ⟨a, b, holds, rfl, rfl⟩

section Fits

variable {p : Program} {kind : Kind} {knowledge : KnowledgeBase} {n : Int}

@[simp]
theorem Kind.label_eq_anyStatement : kind.label = anyStatement ↔ kind = .statement := by
  cases kind <;> decide

theorem Kind.admits_iff (special : kind ≠ .statement) (s : Stmt)
    : kind.admits s = true ↔ s.kind = kind.label := by
  cases kind <;> cases s <;> simp_all [Kind.admits, Kind.label, Stmt.kind]

theorem Program.fits_line {n : Nat}
    : p.Fits kind (.line n) ↔ ∃ s, (n, s) ∈ p.listing ∧ kind.admits s = true := by
  simp only [Program.Fits, Int.natCast_inj]
  constructor
  · rintro ⟨line, s, listed, admitted, rfl⟩
    exact ⟨s, listed, admitted⟩
  · rintro ⟨s, listed, admitted⟩
    exact ⟨n, s, listed, admitted, rfl⟩

theorem Program.fits_statement_line {n : Nat}
    : p.Fits .statement (.line n) ↔ ∃ s, (n, s) ∈ p.listing := by
  simp [Program.fits_line, Kind.admits]

/-- Whatever number fits a kind is that of a statement. -/
theorem Program.Fits.exists_line (fits : p.Fits kind (.line n))
    : ∃ line : Nat, (line : Int) = n ∧ ∃ s, (line, s) ∈ p.listing := by
  obtain ⟨line, s, listed, -, same⟩ := fits
  exact ⟨line, same, s, listed⟩

theorem Program.fits_statement {e : Entity} (fits : p.Fits .statement e)
    : ∃ line : Nat, e = .line line ∧ ∃ s, (line, s) ∈ p.listing := by
  match e, fits with
  | .line n, fits =>
    obtain ⟨line, rfl, listed⟩ := fits.exists_line
    exact ⟨line, rfl, listed⟩
  | .name x, fits => simp [Program.Fits] at fits

variable (describes : knowledge.Describes p) {x : String}
include describes

theorem KnowledgeBase.Describes.length_statements : knowledge.statements.length = p.size := by
  rw [describes.statements, Program.statementEntries, List.length_map, p.length_listing]

theorem KnowledgeBase.Describes.mem_statementLines
    : n ∈ knowledge.statementLines ↔ p.Fits .statement (.line n) := by
  simp only [KnowledgeBase.statementLines, describes.length_statements, List.mem_map,
    List.mem_range]
  constructor
  · rintro ⟨place, inside, rfl⟩
    have listed : ∃ s, (place + 1, s) ∈ p.listing := Program.exists_mem_listing_iff.mpr (by omega)
    exact_mod_cast Program.fits_statement_line.mpr listed
  · intro fits
    obtain ⟨line, rfl, listed⟩ := fits.exists_line
    have bounds := Program.exists_mem_listing_iff.mp listed
    exact ⟨line - 1, by omega, by omega⟩

theorem KnowledgeBase.Describes.mem_linesOfKind (special : kind ≠ .statement)
    : n ∈ knowledge.linesOfKind kind.label ↔ p.Fits kind (.line n) := by
  simp only [KnowledgeBase.linesOfKind, describes.statements, Program.statementEntries,
    List.mem_map, List.mem_filter, beq_iff_eq, Program.Fits]
  constructor
  · rintro ⟨entry, ⟨⟨⟨line, s⟩, listed, rfl⟩, same⟩, rfl⟩
    exact ⟨line, s, listed, (Kind.admits_iff special s).mpr same, rfl⟩
  · rintro ⟨line, s, listed, admitted, rfl⟩
    exact ⟨_, ⟨⟨_, listed, rfl⟩, (Kind.admits_iff special s).mp admitted⟩, rfl⟩

theorem KnowledgeBase.Describes.mem_procedureNames
    : x ∈ knowledge.procedureNames ↔ p.Fits .procedure (.name x) := by
  simp only [KnowledgeBase.procedureNames, describes.procedures, Program.procedureEntries,
    Program.Fits, Program.numbered, List.map_map, List.mem_map, Function.comp]
  constructor
  · rintro ⟨entry, member, rfl⟩
    exact .inl ⟨trivial, entry.2, Program.mem_starts member, rfl⟩
  · rintro (⟨-, procedure, declared, rfl⟩ | ⟨impossible, -⟩)
    · obtain ⟨start, member⟩ := Program.exists_mem_starts declared 1
      exact ⟨_, member, rfl⟩
    · cases impossible

theorem KnowledgeBase.Describes.mem_variableNames
    : x ∈ knowledge.variableNames ↔ p.Fits .variable (.name x) := by
  simp [describes.variableNames, Program.variableNames, Program.Fits, Stmt.mem_ownModified,
    Stmt.mem_ownUsed]

end Fits

end ProgramQuery

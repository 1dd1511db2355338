import ProgramQuery.Program.Outline
import ProgramQuery.Proofs.Program.Numbering
import ProgramQuery.Tree.Search

/-! A search of a program's tree for a number comes to the statement with that number before it comes to
any other node that carries the number.
-/

namespace ProgramQuery

namespace Tree

def seek (n : Nat) (places : List Tree) : Asked (Option Tree) :=
  places.findM? (testing (hasLine n))

variable {n : Nat}

theorem seek_node {label text : String} {line : Int} {children after : List Tree}
    : seek n (.node label text line children :: after)
      = if line = n then .ok (some (.node label text line children)) else seek n after := by
  have tested : testing (hasLine n) (.node label text line children) = .ok (decide (line = n)) := by
    simp [testing, hasLine, line?, beq_eq_decide]
  rw [seek, List.findM?, tested]
  by_cases same : line = n
  · simp [same, bind, Except.bind, pure, Except.pure]
  · simp [same, bind, Except.bind, seek]

def listed (n : Nat) (listing : List (Nat × Stmt)) (otherwise : Asked (Option Tree))
    : Asked (Option Tree) :=
  (listing.lookup n).elim otherwise fun s => .ok (some (s.toTree n))

variable {otherwise : Asked (Option Tree)}

@[simp] theorem listed_nil
    : listed n [] otherwise = otherwise :=
  rfl

theorem mem_of_lookup {listing : List (Nat × Stmt)} {s : Stmt}
    (found : listing.lookup n = some s)
    : (n, s) ∈ listing := by
  obtain ⟨before, behind, rfl, -⟩ := List.lookup_eq_some_iff.mp found
  simp

/-- Where all numbers of one listing lie before those of another, the order of the two does not
matter. -/
theorem listed_append {first second : List (Nat × Stmt)}
    (apart : ∀ entry ∈ first, ∀ entry' ∈ second, entry.1 < entry'.1)
    : listed n (first ++ second) otherwise = listed n second (listed n first otherwise) := by
  rw [listed, listed, listed, List.lookup_append]
  cases inFirst : List.lookup n first with
  | none => rfl
  | some s =>
    cases inSecond : List.lookup n second with
    | none => rfl
    | some t =>
      exact absurd (apart _ (mem_of_lookup inFirst) _ (mem_of_lookup inSecond)) (Nat.lt_irrefl n)

end Tree

variable {n : Nat} {p : Program} {title : String}

/-- A search for another number passes an expression. -/
theorem Expr.seek_visitsThen {line : Nat} (other : n ≠ line) (e : Expr) (after : List Tree)
    : Tree.seek n ((e.toTree line).visitsThen after) = Tree.seek n after := by
  have passed : ¬ (line : Int) = n := by omega
  induction e generalizing after with
  | name x => simp [Expr.toTree, Tree.visitsThen, Tree.visitsLastThen, Tree.seek_node, passed]
  | literal digits => simp [Expr.toTree, Tree.visitsThen, Tree.visitsLastThen, Tree.seek_node, passed]
  | binary op left right ihLeft ihRight =>
    simp [Expr.toTree, Tree.visitsThen, Tree.visitsLastThen, Tree.seek_node, passed, ihLeft, ihRight]

mutual

/-- A search comes to the statement within a statement that has the number. Where there is none, it
goes on behind. -/
theorem Stmt.seek_visitsThen (positive : n ≠ 0) (line : Nat) (s : Stmt) (after : List Tree)
    : Tree.seek n ((s.toTree line).visitsThen after)
      = Tree.listed n (s.listing line) (Tree.seek n after) := by
  by_cases same : n = line
  · subst same
    cases s <;> simp [Stmt.toTree, Stmt.listing, Tree.visitsThen, Tree.seek_node, Tree.listed]
  · have passed : ¬ (line : Int) = n := by omega
    have unnumbered : ¬ (0 : Int) = n := by omega
    have skipped (s : Stmt) (listing : List (Nat × Stmt)) (otherwise : Asked (Option Tree))
        : Tree.listed n ((line, s) :: listing) otherwise = Tree.listed n listing otherwise := by
      simp [Tree.listed, List.lookup, show (n == line) = false by simpa using same]
    cases s with
    | assign target value =>
      simp [Stmt.toTree, Stmt.listing, Tree.visitsThen, Tree.visitsLastThen, Tree.seek_node, passed,
        skipped, Expr.seek_visitsThen same]
    | call callee =>
      simp [Stmt.toTree, Stmt.listing, Tree.visitsThen, Tree.visitsLastThen, Tree.seek_node, passed,
        skipped]
    | loop condition body =>
      simp [Stmt.toTree, Stmt.listTree, Stmt.listing, Tree.visitsThen, Tree.visitsLastThen,
        Tree.seek_node, passed, unnumbered, skipped, Stmt.seek_visitsLastThen positive (line + 1) body]
    | branch condition thenBody elseBody =>
      have apart : ∀ entry ∈ Stmt.listings (line + 1) thenBody,
          ∀ entry' ∈ Stmt.listings (line + 1 + Stmt.sizes thenBody) elseBody,
          entry.1 < entry'.1 := fun entry inThen entry' inElse =>
        (Stmt.span_of_mem inThen).2.trans_le (Stmt.span_of_mem inElse).1
      simp [Stmt.toTree, Stmt.listTree, Stmt.listing, Tree.visitsThen, Tree.visitsLastThen,
        Tree.seek_node, passed, unnumbered, skipped, Tree.listed_append apart,
        Stmt.seek_visitsLastThen positive (line + 1) thenBody,
        Stmt.seek_visitsLastThen positive (line + 1 + Stmt.sizes thenBody) elseBody]

theorem Stmt.seek_visitsLastThen (positive : n ≠ 0) (line : Nat) (statements : List Stmt)
    (after : List Tree)
    : Tree.seek n (Tree.visitsLastThen (Stmt.toTrees line statements) after)
      = Tree.listed n (Stmt.listings line statements) (Tree.seek n after) := by
  cases statements with
  | nil => rfl
  | cons s rest =>
    have apart : ∀ entry ∈ s.listing line, ∀ entry' ∈ Stmt.listings (line + s.size) rest,
        entry.1 < entry'.1 := fun entry here entry' behind =>
      (Stmt.span_of_mem_listing here).2.trans_le (Stmt.span_of_mem behind).1
    rw [Stmt.toTrees, Tree.visitsLastThen, Stmt.seek_visitsLastThen positive,
      Stmt.seek_visitsThen positive line s, Stmt.listings, Tree.listed_append apart]

end

theorem Program.seek_visitsLastThen (positive : n ≠ 0) (line : Nat) (procedures : List Procedure)
    (after : List Tree)
    : Tree.seek n (Tree.visitsLastThen
        ((Program.starts line procedures).map fun entry => entry.2.toTree entry.1) after)
      = Tree.listed n ((Program.starts line procedures).flatMap fun entry =>
          Stmt.listings entry.1 entry.2.body) (Tree.seek n after) := by
  have unnumbered : ¬ (0 : Int) = n := by omega
  induction procedures generalizing line after with
  | nil => rfl
  | cons procedure rest ih =>
    have apart : ∀ entry ∈ Stmt.listings line procedure.body,
        ∀ entry' ∈ (Program.starts (line + Stmt.sizes procedure.body) rest).flatMap
          fun entry => Stmt.listings entry.1 entry.2.body, entry.1 < entry'.1 := by
      intro entry here entry' behind
      have lines := List.mem_map_of_mem (f := fun (e : Nat × Stmt) => e.1) behind
      rw [Program.starts_lines, List.mem_range'_1] at lines
      exact (Stmt.span_of_mem here).2.trans_le lines.1
    rw [Program.starts, List.flatMap_cons, Tree.listed_append apart, List.map_cons,
      Tree.visitsLastThen, ih]
    simp [Procedure.toTree, Stmt.listTree, Tree.visitsThen, Tree.visitsLastThen, Tree.seek_node,
      unnumbered, Stmt.seek_visitsLastThen positive]

/-- A search of a program's tree for a number comes to what is listed under the number. -/
theorem Program.find?_eq_listed (positive : n ≠ 0) (p : Program) (title : String)
    : (p.toTree title).find? (Tree.hasLine n) = Tree.listed n p.listing (.ok none) := by
  have unnumbered : ¬ (0 : Int) = n := by omega
  calc (p.toTree title).find? (Tree.hasLine n)
      = Tree.seek n ((p.toTree title).visitsThen []) := rfl
    _ = Tree.listed n p.listing (Tree.seek n []) := by
        rw [Program.toTree, Tree.visitsThen, Tree.seek_node, if_neg unnumbered]
        exact Program.seek_visitsLastThen positive 1 p.procedures []

/-- The node found for the number of a statement is that of the statement. -/
theorem Program.find?_line {s : Stmt} (member : (n, s) ∈ p.listing)
    : (p.toTree title).find? (Tree.hasLine n) = .ok (some (s.toTree n)) := by
  have lines := Program.exists_mem_listing_iff.mp ⟨s, member⟩
  obtain ⟨t, found⟩ : ∃ t, p.listing.lookup n = some t := by
    cases found : p.listing.lookup n with
    | some t => exact ⟨t, rfl⟩
    | none => simpa using List.lookup_eq_none_iff.mp found _ member
  obtain rfl := Program.listing_unique member (Tree.mem_of_lookup found)
  rw [Program.find?_eq_listed (by omega), Tree.listed, found]
  rfl

/-- A number behind the last one is not found. -/
theorem Program.find?_beyond (beyond : p.size < n)
    : (p.toTree title).find? (Tree.hasLine n) = .ok none := by
  have unlisted : p.listing.lookup n = none := by
    rw [List.lookup_eq_none_iff]
    intro entry member
    have lines := Program.exists_mem_listing_iff.mp ⟨entry.2, member⟩
    simpa using show n ≠ entry.1 by omega
  rw [Program.find?_eq_listed (by omega), Tree.listed, unlisted]
  rfl

end ProgramQuery

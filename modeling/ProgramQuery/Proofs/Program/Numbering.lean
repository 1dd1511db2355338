import Mathlib
import ProgramQuery.Program.Nesting

/-! The statements of a program are numbered from one without a gap, and every statement stands in
exactly one statement list. Both follow from how a listing is put together, so that later proofs do
not have to look into the shape of a program again.
-/

namespace ProgramQuery

def Stmt.parts : Stmt → List Stmt
  | .assign _ _ => []
  | .call _ => []
  | .loop _ body => body
  | .branch _ thenBody elseBody => thenBody ++ elseBody

/-- The first statement is the second one or stands inside it, however deep. -/
def Stmt.Within (inner outer : Stmt) : Prop :=
  Relation.ReflTransGen (fun s t => s ∈ Stmt.parts t) inner outer

/-- The first statement stands inside the second one, however deep. -/
def Stmt.Inside (inner outer : Stmt) : Prop :=
  Relation.TransGen (fun s t => s ∈ Stmt.parts t) inner outer

variable {inner outer : Stmt}

theorem Stmt.within_iff
    : Stmt.Within inner outer ↔ inner = outer ∨ ∃ s ∈ outer.parts, Stmt.Within inner s := by
  constructor
  · intro path
    rcases Relation.ReflTransGen.cases_tail path with same | ⟨s, path, member⟩
    · exact Or.inl same.symm
    · exact Or.inr ⟨s, member, path⟩
  · rintro (rfl | ⟨s, member, path⟩)
    · exact Relation.ReflTransGen.refl
    · exact Relation.ReflTransGen.tail path member

/-- Something holds of a statement and of all statements inside it. -/
def Stmt.Throughout (s : Stmt) (good : Stmt → Bool) : Prop :=
  ∀ t, Stmt.Within t s → good t = true

theorem Stmt.throughout_iff {s : Stmt} {good : Stmt → Bool}
    : s.Throughout good ↔ good s = true ∧ ∀ t ∈ s.parts, t.Throughout good := by
  constructor
  · intro all
    refine ⟨all s (Stmt.within_iff.mpr (Or.inl rfl)), ?_⟩
    intro t member inner within
    exact all inner (Stmt.within_iff.mpr (Or.inr ⟨t, member, within⟩))
  · rintro ⟨own, parts⟩ t within
    rcases Stmt.within_iff.mp within with rfl | ⟨inner, member, within⟩
    · exact own
    · exact parts inner member t within

theorem Stmt.within_iff_inside
    : Stmt.Within inner outer ↔ inner = outer ∨ Stmt.Inside inner outer := by
  rw [Stmt.Within, Relation.reflTransGen_iff_eq_or_transGen, eq_comm, Stmt.Inside]

mutual

/-- The statements listed for a statement are those within it, by recursion on the statement. -/
theorem Stmt.mem_listing_iff_within (line : Nat) (s t : Stmt)
    : (∃ n, (n, t) ∈ s.listing line) ↔ Stmt.Within t s := by
  rw [Stmt.within_iff]
  cases s with
  | assign target value => simp [Stmt.listing, Stmt.parts]
  | call callee => simp [Stmt.listing, Stmt.parts]
  | loop condition body =>
    simp only [Stmt.listing, Stmt.parts, List.mem_cons, Prod.mk.injEq, exists_or,
      exists_and_right, exists_eq, true_and, Stmt.mem_listings_iff_within (line + 1) body t]
  | branch condition thenBody elseBody =>
    simp only [Stmt.listing, Stmt.parts, List.mem_cons, List.mem_append, Prod.mk.injEq, exists_or,
      exists_and_right, exists_eq, true_and, or_and_right,
      Stmt.mem_listings_iff_within (line + 1) thenBody t,
      Stmt.mem_listings_iff_within (line + 1 + Stmt.sizes thenBody) elseBody t]

theorem Stmt.mem_listings_iff_within (line : Nat) (statements : List Stmt) (t : Stmt)
    : (∃ n, (n, t) ∈ Stmt.listings line statements) ↔ ∃ s ∈ statements, Stmt.Within t s := by
  cases statements with
  | nil => simp [Stmt.listings]
  | cons s rest =>
    simp only [Stmt.listings, List.mem_append, exists_or, List.exists_mem_cons_iff,
      Stmt.mem_listing_iff_within line s t,
      Stmt.mem_listings_iff_within (line + s.size) rest t]

end

theorem Stmt.size_pos (s : Stmt) : 0 < s.size := by
  cases s <;> simp only [Stmt.size] <;> omega

mutual

/-- A statement takes as many numbers as its size says, starting with its own. -/
theorem Stmt.listing_lines (line : Nat) (s : Stmt)
    : (s.listing line).map (·.1) = List.range' line s.size := by
  cases s with
  | assign target value => simp [Stmt.listing, Stmt.size]
  | call callee => simp [Stmt.listing, Stmt.size]
  | loop condition body =>
    simp only [Stmt.listing, Stmt.size, List.map_cons, Stmt.listings_lines (line + 1) body]
    rw [Nat.add_comm 1, List.range'_succ]
  | branch condition thenBody elseBody =>
    simp only [Stmt.listing, Stmt.size, List.map_cons, List.map_append,
      Stmt.listings_lines (line + 1) thenBody,
      Stmt.listings_lines (line + 1 + Stmt.sizes thenBody) elseBody, List.range'_append_1]
    rw [Nat.add_assoc 1, Nat.add_comm 1, List.range'_succ]

theorem Stmt.listings_lines (line : Nat) (statements : List Stmt)
    : (Stmt.listings line statements).map (·.1) = List.range' line (Stmt.sizes statements) := by
  cases statements with
  | nil => simp [Stmt.listings, Stmt.sizes]
  | cons s rest =>
    simp only [Stmt.listings, Stmt.sizes, List.map_append, Stmt.listing_lines line s,
      Stmt.listings_lines (line + s.size) rest, List.range'_append_1]

end

variable {start line : Nat} {statements : List Stmt}

/-- A number is taken in a list if it lies in the range that the list spans. -/
theorem Stmt.exists_mem_listings_iff : (∃ s, (line, s) ∈ Stmt.listings start statements)
      ↔ start ≤ line ∧ line < start + Stmt.sizes statements := by
  have listed : line ∈ (Stmt.listings start statements).map (·.1)
      ↔ ∃ s, (line, s) ∈ Stmt.listings start statements := by simp
  rw [← listed, Stmt.listings_lines, List.mem_range'_1]

theorem Stmt.span_of_mem_listing {s : Stmt} {entry : Nat × Stmt}
    (listed : entry ∈ s.listing line)
    : line ≤ entry.1 ∧ entry.1 < line + s.size := by
  have taken : entry.1 ∈ (s.listing line).map (·.1) := List.mem_map_of_mem listed
  rwa [Stmt.listing_lines, List.mem_range'_1] at taken

theorem Stmt.span_of_mem {entry : Nat × Stmt}
    (listed : entry ∈ Stmt.listings start statements)
    : start ≤ entry.1 ∧ entry.1 < start + Stmt.sizes statements :=
  Stmt.exists_mem_listings_iff.mp ⟨entry.2, listed⟩

mutual

/-- Where the numbers start makes no other difference to a listing. -/
theorem Stmt.listing_add (line shift : Nat) (s : Stmt)
    : s.listing (line + shift) = (s.listing line).map fun entry => (entry.1 + shift, entry.2) := by
  cases s with
  | assign target value => simp [Stmt.listing]
  | call callee => simp [Stmt.listing]
  | loop condition body =>
    simp only [Stmt.listing, List.map_cons, ← Stmt.listings_add (line + 1) shift body,
      Nat.add_right_comm]
  | branch condition thenBody elseBody =>
    simp only [Stmt.listing, List.map_cons, List.map_append,
      ← Stmt.listings_add (line + 1) shift thenBody,
      ← Stmt.listings_add (line + 1 + Stmt.sizes thenBody) shift elseBody]
    rw [Nat.add_right_comm line shift 1, Nat.add_right_comm (line + 1) shift]

theorem Stmt.listings_add (line shift : Nat) (statements : List Stmt)
    : Stmt.listings (line + shift) statements
      = (Stmt.listings line statements).map fun entry => (entry.1 + shift, entry.2) := by
  cases statements with
  | nil => simp [Stmt.listings]
  | cons s rest =>
    simp only [Stmt.listings, List.map_append, ← Stmt.listing_add line shift s,
      ← Stmt.listings_add (line + s.size) shift rest, Nat.add_right_comm]

end

/-- The statement at a place of a list is the same wherever the list starts. -/
theorem Stmt.mem_listings_place {start' place : Nat} {s : Stmt}
    (listed : (start + place, s) ∈ Stmt.listings start statements)
    : (start' + place, s) ∈ Stmt.listings start' statements := by
  rw [← Nat.zero_add start, Stmt.listings_add, List.mem_map] at listed
  obtain ⟨entry, member, same⟩ := listed
  obtain ⟨line, rfl⟩ := Prod.mk.inj same
  rw [← Nat.zero_add start', Stmt.listings_add, List.mem_map]
  exact ⟨entry, member, by simp; omega⟩

def Program.size (p : Program) : Nat :=
  (p.procedures.map fun procedure => Stmt.sizes procedure.body).sum

theorem Program.starts_lines (line : Nat) (procedures : List Procedure)
    : ((Program.starts line procedures).flatMap fun entry =>
        Stmt.listings entry.1 entry.2.body).map (·.1)
      = List.range' line (procedures.map fun procedure => Stmt.sizes procedure.body).sum := by
  induction procedures generalizing line with
  | nil => simp [Program.starts]
  | cons procedure rest ih =>
    simp only [Program.starts, List.flatMap_cons, List.map_append, Stmt.listings_lines, ih,
      List.map_cons, List.sum_cons, List.range'_append_1]

/-- The statements of a program are numbered from one on, in the order of the text. -/
theorem Program.listing_lines (p : Program) : p.listing.map (·.1) = List.range' 1 p.size :=
  Program.starts_lines 1 p.procedures

theorem Program.nodup_listing_lines (p : Program) : (p.listing.map (·.1)).Nodup := by
  rw [p.listing_lines]
  exact List.nodup_range'

variable {p : Program}

/-- A number belongs to one statement only. -/
theorem Program.listing_unique {s t : Stmt}
    (first : (line, s) ∈ p.listing) (second : (line, t) ∈ p.listing)
    : s = t := by
  have same := List.inj_on_of_nodup_map p.nodup_listing_lines first second rfl
  exact (Prod.mk.inj same).2

/-- The numbers in use are those from one up to the size of the program. -/
theorem Program.exists_mem_listing_iff
    : (∃ s, (line, s) ∈ p.listing) ↔ 1 ≤ line ∧ line ≤ p.size := by
  have listed : line ∈ p.listing.map (·.1) ↔ ∃ s, (line, s) ∈ p.listing := by simp
  rw [← listed, p.listing_lines, List.mem_range'_1]
  omega

theorem Program.length_listing (p : Program) : p.listing.length = p.size := by
  have lengths := congrArg List.length p.listing_lines
  simpa using lengths

def Stmt.bodies (line : Nat) : Stmt → List (Nat × List Stmt)
  | .assign _ _ => []
  | .call _ => []
  | .loop _ body => [(line + 1, body)]
  | .branch _ thenBody elseBody =>
    [(line + 1, thenBody), (line + 1 + Stmt.sizes thenBody, elseBody)]

def Program.lists (p : Program) : List (Nat × List Stmt) :=
  (p.numbered.map fun entry => (entry.1, entry.2.body))
    ++ p.listing.flatMap fun entry => entry.2.bodies entry.1

theorem Stmt.childLines_eq (line : Nat) (s : Stmt)
    : s.childLines line = (s.bodies line).flatMap fun list => Stmt.lines list.1 list.2 := by
  cases s <;> simp [Stmt.childLines, Stmt.bodies]

theorem Stmt.innerNeighbours_eq (line : Nat) (s : Stmt)
    : s.innerNeighbours line
      = (s.bodies line).flatMap fun list => Stmt.neighbours list.1 list.2 := by
  cases s <;> simp [Stmt.innerNeighbours, Stmt.bodies]

theorem Program.neighbours_eq (p : Program)
    : p.neighbours = p.lists.flatMap fun list => Stmt.neighbours list.1 list.2 := by
  simp only [Program.neighbours, Program.lists, List.flatMap_append, List.flatMap_map,
    List.flatMap_assoc, Stmt.innerNeighbours_eq]

mutual

/-- A statement's own number and the members of the lists inside it are all the numbers it takes. -/
theorem Stmt.listing_perm (line : Nat) (s : Stmt)
    : ((s.listing line).map (·.1)).Perm
        (line :: (s.listing line).flatMap fun entry => entry.2.childLines entry.1) := by
  cases s with
  | assign target value => simp [Stmt.listing, Stmt.childLines]
  | call callee => simp [Stmt.listing, Stmt.childLines]
  | loop condition body =>
    simp only [Stmt.listing, List.map_cons, List.flatMap_cons, Stmt.childLines]
    exact (Stmt.listings_perm (line + 1) body).cons line
  | branch condition thenBody elseBody =>
    simp only [Stmt.listing, List.map_cons, List.flatMap_cons, Stmt.childLines, List.map_append,
      List.flatMap_append]
    refine List.Perm.cons line (((Stmt.listings_perm (line + 1) thenBody).append
      (Stmt.listings_perm (line + 1 + Stmt.sizes thenBody) elseBody)).trans ?_)
    simp only [List.append_assoc]
    refine List.Perm.append_left _ ?_
    rw [← List.append_assoc, ← List.append_assoc]
    exact List.perm_append_comm.append_right _

theorem Stmt.listings_perm (line : Nat) (statements : List Stmt)
    : ((Stmt.listings line statements).map (·.1)).Perm
        (Stmt.lines line statements
          ++ (Stmt.listings line statements).flatMap fun entry => entry.2.childLines entry.1) := by
  cases statements with
  | nil => simp [Stmt.listings, Stmt.lines]
  | cons s rest =>
    simp only [Stmt.listings, Stmt.lines, List.map_append, List.flatMap_append, List.cons_append]
    refine ((Stmt.listing_perm line s).append
      (Stmt.listings_perm (line + s.size) rest)).trans ?_
    rw [List.cons_append]
    refine List.Perm.cons line ?_
    rw [← List.append_assoc, ← List.append_assoc]
    exact List.perm_append_comm.append_right _

end

/-- Every statement of a program is a member of exactly one of its lists. -/
theorem Program.lists_perm (p : Program)
    : (p.listing.map (·.1)).Perm (p.lists.flatMap fun list => Stmt.lines list.1 list.2) := by
  have gather (entries : List (Nat × Procedure))
      : ((entries.flatMap fun entry => Stmt.listings entry.1 entry.2.body).map (·.1)).Perm
          ((entries.flatMap fun entry => Stmt.lines entry.1 entry.2.body)
            ++ (entries.flatMap fun entry => Stmt.listings entry.1 entry.2.body).flatMap
                fun entry => entry.2.childLines entry.1) := by
    induction entries with
    | nil => simp
    | cons entry rest ih =>
      simp only [List.flatMap_cons, List.map_append, List.flatMap_append]
      refine ((Stmt.listings_perm entry.1 entry.2.body).append ih).trans ?_
      simp only [List.append_assoc]
      refine List.Perm.append_left _ ?_
      rw [← List.append_assoc, ← List.append_assoc]
      exact List.perm_append_comm.append_right _
  refine (gather p.numbered).trans (List.Perm.of_eq ?_)
  simp only [Program.lists, Program.listing, List.flatMap_append, List.flatMap_map,
    List.flatMap_assoc, Stmt.childLines_eq]

theorem Program.nodup_lists (p : Program)
    : (p.lists.flatMap fun list => Stmt.lines list.1 list.2).Nodup :=
  p.lists_perm.nodup_iff.mp p.nodup_listing_lines

end ProgramQuery

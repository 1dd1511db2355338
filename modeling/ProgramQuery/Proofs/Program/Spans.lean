import ProgramQuery.Proofs.Program.Nesting

/-! The tables of statements and procedures. The record at each place of the statement table is that of
the statement with the next number, and it spans the numbers inside that statement; the procedures
follow each other and take up all numbers.
-/

open Relation (TransGen)

namespace ProgramQuery

theorem Stmt.mem_listing_iff {line k : Nat} {s t : Stmt}
    : (k, t) ∈ s.listing line
      ↔ (k = line ∧ t = s) ∨ ∃ list ∈ s.bodies line, (k, t) ∈ Stmt.listings list.1 list.2 := by
  cases s <;> simp [Stmt.listing, Stmt.bodies]

theorem Stmt.mem_listing_self (line : Nat) (s : Stmt) : (line, s) ∈ s.listing line :=
  Stmt.mem_listing_iff.mpr (.inl ⟨rfl, rfl⟩)

/-- A statement listed for a list stands within one of the list's own members. -/
theorem Stmt.exists_member_of_mem_listings {start k : Nat} {statements : List Stmt} {t : Stmt}
    (listed : (k, t) ∈ Stmt.listings start statements)
    : ∃ line s, line ∈ Stmt.lines start statements ∧ (line, s) ∈ Stmt.listings start statements
      ∧ (k, t) ∈ s.listing line := by
  induction statements generalizing start with
  | nil => cases listed
  | cons s rest ih =>
    rcases List.mem_append.mp listed with inFirst | inRest
    · exact ⟨start, s, by simp [Stmt.lines],
        List.mem_append_left _ (Stmt.mem_listing_self start s), inFirst⟩
    · obtain ⟨line, s', member, listed', inside⟩ := ih inRest
      exact ⟨line, s', List.mem_cons_of_mem _ member, List.mem_append_right _ listed', inside⟩

/-- The members of a list are listed for it. -/
theorem Stmt.exists_mem_listings_of_mem_lines {start line : Nat} {statements : List Stmt}
    (member : line ∈ Stmt.lines start statements)
    : ∃ s, (line, s) ∈ Stmt.listings start statements := by
  induction statements generalizing start with
  | nil => cases member
  | cons s rest ih =>
    rcases List.mem_cons.mp member with rfl | member
    · exact ⟨s, List.mem_append_left _ (Stmt.mem_listing_self line s)⟩
    · obtain ⟨s', listed⟩ := ih member
      exact ⟨s', List.mem_append_right _ listed⟩

mutual

theorem Stmt.listing_subset (line : Nat) (s : Stmt) {k : Nat} {t : Stmt}
    (inside : (k, t) ∈ s.listing line)
    : t.listing k ⊆ s.listing line := by
  cases s with
  | assign target value =>
    obtain ⟨rfl, rfl⟩ := Prod.mk.inj (List.mem_singleton.mp inside)
    exact List.Subset.refl _
  | call callee =>
    obtain ⟨rfl, rfl⟩ := Prod.mk.inj (List.mem_singleton.mp inside)
    exact List.Subset.refl _
  | loop condition body =>
    rcases List.mem_cons.mp inside with same | inBody
    · obtain ⟨rfl, rfl⟩ := Prod.mk.inj same
      exact List.Subset.refl _
    · exact List.subset_cons_of_subset _ (Stmt.listings_subset (line + 1) body inBody)
  | branch condition thenBody elseBody =>
    rcases List.mem_cons.mp inside with same | inBodies
    · obtain ⟨rfl, rfl⟩ := Prod.mk.inj same
      exact List.Subset.refl _
    · refine List.subset_cons_of_subset _ ?_
      rcases List.mem_append.mp inBodies with inThen | inElse
      · exact List.subset_append_of_subset_left _
          (Stmt.listings_subset (line + 1) thenBody inThen)
      · exact List.subset_append_of_subset_right _
          (Stmt.listings_subset (line + 1 + Stmt.sizes thenBody) elseBody inElse)

theorem Stmt.listings_subset (start : Nat) (statements : List Stmt) {k : Nat} {t : Stmt}
    (inside : (k, t) ∈ Stmt.listings start statements)
    : t.listing k ⊆ Stmt.listings start statements := by
  cases statements with
  | nil => cases inside
  | cons s rest =>
    rcases List.mem_append.mp inside with inFirst | inRest
    · exact List.subset_append_of_subset_left _ (Stmt.listing_subset start s inFirst)
    · exact List.subset_append_of_subset_right _
        (Stmt.listings_subset (start + s.size) rest inRest)

end

/-- A statement within another one ends with it at the latest. -/
theorem Stmt.listing_add_size_le {line k : Nat} {s t : Stmt} (inside : (k, t) ∈ s.listing line)
    : k + t.size ≤ line + s.size := by
  have pos := t.size_pos
  have last : k + t.size - 1 ∈ (t.listing k).map (·.1) := by
    rw [Stmt.listing_lines, List.mem_range'_1]
    omega
  have taken := List.map_subset (·.1) (Stmt.listing_subset line s inside) last
  rw [Stmt.listing_lines, List.mem_range'_1] at taken
  omega

namespace Program

variable {p : Program} {line k : Nat} {s t : Stmt}

theorem listing_subset (listed : (line, s) ∈ p.listing) : s.listing line ⊆ p.listing := by
  obtain ⟨entry, numbered, inside⟩ := List.mem_flatMap.mp listed
  intro pair member
  exact List.mem_flatMap.mpr
    ⟨entry, numbered, Stmt.listings_subset entry.1 entry.2.body inside member⟩

/-- The statements within a statement are those with the numbers that it takes. -/
theorem mem_listing_iff_span (outer : (line, s) ∈ p.listing) (inner : (k, t) ∈ p.listing)
    : (k, t) ∈ s.listing line ↔ line ≤ k ∧ k < line + s.size := by
  have numbered : k ∈ (s.listing line).map (·.1) ↔ line ≤ k ∧ k < line + s.size := by
    rw [Stmt.listing_lines, List.mem_range'_1]
  rw [← numbered, List.mem_map]
  constructor
  · intro inside
    exact ⟨_, inside, rfl⟩
  · rintro ⟨⟨_, t'⟩, inside, rfl⟩
    rwa [Program.listing_unique inner (listing_subset outer inside)]

/-- A statement directly inside another one is listed for it, behind it. -/
theorem Parent.mem_listing (holds : p.Parent line k) (listed : (line, s) ∈ p.listing)
    : ∃ t, (k, t) ∈ s.listing line := by
  obtain ⟨s', listed', list, member, inside⟩ := holds
  obtain rfl := Program.listing_unique listed listed'
  obtain ⟨t, found⟩ := Stmt.exists_mem_listings_of_mem_lines inside
  exact ⟨t, Stmt.mem_listing_iff.mpr (.inr ⟨list, member, found⟩)⟩

/-- What is listed for a statement behind itself stands inside it at some depth. The induction is on
the size of the statement, and each step goes to the part that holds the inner one. -/
theorem transGen_parent_of_mem_listing (listed : (line, s) ∈ p.listing)
    (inside : (k, t) ∈ s.listing line) (behind : line < k)
    : TransGen p.Parent line k := by
  induction size : s.size using Nat.strong_induction_on generalizing line s with
  | _ n ih =>
    rcases Stmt.mem_listing_iff.mp inside with ⟨rfl, -⟩ | ⟨list, member, found⟩
    · omega
    · obtain ⟨middle, u, inList, listedU, below⟩ := Stmt.exists_member_of_mem_listings found
      have parent : p.Parent line middle := ⟨s, listed, list, member, inList⟩
      have within : (middle, u) ∈ s.listing line :=
        Stmt.mem_listing_iff.mpr (.inr ⟨list, member, listedU⟩)
      have listed' := listing_subset listed within
      have span := (mem_listing_iff_span listed' (listing_subset listed' below)).mp below
      rcases Nat.eq_or_lt_of_le span.1 with rfl | further
      · exact .single parent
      · have first := parent.lt
        have last := Stmt.listing_add_size_le within
        exact .head parent (ih u.size (by omega) listed' below further rfl)

/-- The numbers inside a statement are the next ones after its own. -/
theorem transGen_parent_iff (listed : (line, s) ∈ p.listing)
    : TransGen p.Parent line k ↔ line < k ∧ k < line + s.size := by
  constructor
  · intro path
    have inside : line < k ∧ ∃ t, (k, t) ∈ s.listing line := by
      induction path with
      | single holds => exact ⟨holds.lt, holds.mem_listing listed⟩
      | tail _ holds ih =>
        obtain ⟨behind, t, found⟩ := ih
        obtain ⟨u, below⟩ := holds.mem_listing (listing_subset listed found)
        exact ⟨behind.trans holds.lt, u, Stmt.listing_subset line s found below⟩
    obtain ⟨behind, t, found⟩ := inside
    exact ⟨behind, ((mem_listing_iff_span listed (listing_subset listed found)).mp found).2⟩
  · rintro ⟨behind, before⟩
    have taken : k ∈ (s.listing line).map (·.1) := by
      rw [Stmt.listing_lines, List.mem_range'_1]
      omega
    obtain ⟨⟨_, t⟩, inside, rfl⟩ := List.mem_map.mp taken
    exact transGen_parent_of_mem_listing listed inside behind

end Program

def Stmt.LastLine (list : Nat × List Stmt) (last : Int) : Prop :=
  ∃ n : Nat, last = n ∧ IsGreatest {k | ∃ t, (k, t) ∈ Stmt.listings list.1 list.2} n

/-- The record of a statement: it goes from the statement's own number to the last number inside the
statement, and holds no other numbers. A conditional with two branches that are not empty also has the
last numbers of both. -/
structure StatementEntry.Records (e : StatementEntry) (p : Program) (number : Nat) (s : Stmt)
    : Prop where
  line : e.line = number
  kind : e.kind = s.kind
  value : e.value = s.head
  start : e.start = number
  finish : ∃ n : Nat, e.finish = n ∧ IsGreatest {k | k = number ∨ TransGen p.Parent number k} n
  covers : ∀ k : Nat, e.start ≤ k ∧ k ≤ e.finish ↔ k = number ∨ TransGen p.Parent number k
  alone : s.isContainer = false → e.finish = number
  branches : ∀ first second, s.bodies number = [first, second] → first.2 ≠ [] → second.2 ≠ [] →
    ∃ ends, e.branchEnds = some ends ∧ Stmt.LastLine first ends.thenEnd
      ∧ Stmt.LastLine second ends.elseEnd ∧ ends.elseEnd = e.finish

def StatementEntry.Around (e e' : StatementEntry) : Prop :=
  e.start ≤ e'.start ∧ e'.finish ≤ e.finish

def StatementEntry.Before (e e' : StatementEntry) : Prop :=
  e.finish < e'.start

theorem Stmt.sizes_pos {statements : List Stmt} (nonempty : statements ≠ [])
    : 0 < Stmt.sizes statements := by
  cases statements with
  | nil => exact absurd rfl nonempty
  | cons s rest =>
    have := s.size_pos
    rw [Stmt.sizes]
    omega

theorem Stmt.lastLine {start last : Nat} {statements : List Stmt} (nonempty : statements ≠ [])
    (ends : last + 1 = start + Stmt.sizes statements)
    : Stmt.LastLine (start, statements) last := by
  have pos := Stmt.sizes_pos nonempty
  have inside : start ≤ last ∧ last < start + Stmt.sizes statements := by omega
  refine ⟨last, rfl, Stmt.exists_mem_listings_iff.mpr inside, fun k listed => ?_⟩
  have below : k < start + Stmt.sizes statements := (Stmt.exists_mem_listings_iff.mp listed).2
  omega

variable {p : Program}

theorem Program.entry_records {line : Nat} {s : Stmt} (listed : (line, s) ∈ p.listing)
    : (s.entry line).Records p line s := by
  have pos := s.size_pos
  have inside (k : Nat) : k = line ∨ TransGen p.Parent line k ↔ line ≤ k ∧ k < line + s.size := by
    rw [Program.transGen_parent_iff listed]
    omega
  refine ⟨rfl, rfl, rfl, rfl, ⟨line + s.size - 1, ?_, ?_, ?_⟩, fun k => ?_, fun alone => ?_, ?_⟩
  · simp only [Stmt.entry]
    omega
  · exact (inside _).mpr (by omega)
  · intro k member
    have := (inside k).mp member
    omega
  · rw [inside]
    simp only [Stmt.entry]
    omega
  · have one : s.size = 1 := by cases s <;> first | rfl | cases alone
    simp only [Stmt.entry, one]
    omega
  · intro first second bodies
    cases s with
    | assign target value => cases bodies
    | call callee => cases bodies
    | loop condition body => cases bodies
    | branch condition thenBody elseBody =>
      cases bodies
      intro (thenNonempty : thenBody ≠ []) (elseNonempty : elseBody ≠ [])
      have thenPos := Stmt.sizes_pos thenNonempty
      have elsePos := Stmt.sizes_pos elseNonempty
      refine ⟨_, rfl, ?_, ?_, ?_⟩
      · simp only [Nat.pos_iff_ne_zero.mp thenPos, if_false]
        exact_mod_cast Stmt.lastLine thenNonempty (by omega)
      · simp only [Nat.pos_iff_ne_zero.mp elsePos, if_false]
        exact_mod_cast Stmt.lastLine elseNonempty (by omega)
      · simp only [Nat.pos_iff_ne_zero.mp elsePos, if_false, Stmt.entry, Stmt.size]
        omega

/-- Of two statements, one is inside the other or they share no number. -/
theorem Program.entries_laminar {line k : Nat} {s t : Stmt}
    (listed : (line, s) ∈ p.listing) (listed' : (k, t) ∈ p.listing)
    : (s.entry line).Around (t.entry k) ∨ (t.entry k).Around (s.entry line)
      ∨ (s.entry line).Before (t.entry k) ∨ (t.entry k).Before (s.entry line) := by
  have ends {line k : Nat} {s t : Stmt} (listed : (line, s) ∈ p.listing)
      (listed' : (k, t) ∈ p.listing) (inside : line ≤ k ∧ k < line + s.size)
      : (s.entry line).Around (t.entry k) := by
    have member := (Program.mem_listing_iff_span listed listed').mpr inside
    have last := Stmt.listing_add_size_le member
    simp only [StatementEntry.Around, Stmt.entry]
    omega
  simp only [StatementEntry.Before]
  by_cases inner : line ≤ k ∧ k < line + s.size
  · exact .inl (ends listed listed' inner)
  · by_cases outer : k ≤ line ∧ line < k + t.size
    · exact .inr (.inl (ends listed' listed outer))
    · simp only [Stmt.entry]
      omega

def Program.entriesFrom (line : Nat) (procedures : List Procedure) : List ProcedureEntry :=
  (Program.starts line procedures).map fun (line, procedure) =>
    ⟨procedure.name, line, line + Stmt.sizes procedure.body - 1⟩

theorem Program.entriesFrom_cons (line : Nat) (procedure : Procedure) (rest : List Procedure)
    : Program.entriesFrom line (procedure :: rest)
      = ⟨procedure.name, line, line + Stmt.sizes procedure.body - 1⟩
        :: Program.entriesFrom (line + Stmt.sizes procedure.body) rest :=
  rfl

theorem Program.start_of_mem_head? {line : Nat} {procedures : List Procedure} {e : ProcedureEntry}
    (first : e ∈ (Program.entriesFrom line procedures).head?)
    : e.start = line := by
  cases procedures with
  | nil => cases first
  | cons procedure rest =>
    cases first
    rfl

/-- Each procedure starts where the one before it has finished. -/
theorem Program.isChain_entriesFrom (line : Nat) (procedures : List Procedure)
    : (Program.entriesFrom line procedures).IsChain fun e e' => e'.start = e.finish + 1 := by
  induction procedures generalizing line with
  | nil => exact .nil
  | cons procedure rest ih =>
    rw [Program.entriesFrom_cons, List.isChain_cons]
    refine ⟨fun e first => ?_, ih _⟩
    rw [Program.start_of_mem_head? first]
    push_cast
    ring

theorem Program.finish_of_mem_getLast? {line : Nat} {procedures : List Procedure}
    {e : ProcedureEntry} (last : e ∈ (Program.entriesFrom line procedures).getLast?)
    : e.finish = line + (procedures.map fun procedure => Stmt.sizes procedure.body).sum - 1 := by
  induction procedures generalizing line with
  | nil => cases last
  | cons procedure rest ih =>
    rw [Program.entriesFrom_cons, List.getLast?_cons] at last
    cases found : (Program.entriesFrom (line + Stmt.sizes procedure.body) rest).getLast? with
    | none =>
      obtain rfl : rest = [] := by
        cases rest with
        | nil => rfl
        | cons _ _ => simp [Program.entriesFrom_cons] at found
      rw [found] at last
      cases last
      simp
    | some e' =>
      rw [found] at last
      cases last
      rw [ih found, List.map_cons, List.sum_cons]
      omega

/-- The record of a procedure has its name and holds the numbers of its statements. -/
structure ProcedureEntry.Records (e : ProcedureEntry) (number : Nat) (procedure : Procedure)
    : Prop where
  name : e.name = procedure.name
  start : e.start = number
  covers : ∀ k : Nat, e.start ≤ k ∧ k ≤ e.finish
    ↔ ∃ s, (k, s) ∈ Stmt.listings number procedure.body

theorem Program.procedureEntries_record (p : Program)
    : List.Forall₂ (fun entry e => ProcedureEntry.Records e entry.1 entry.2) p.numbered
        p.procedureEntries := by
  rw [Program.procedureEntries, List.forall₂_map_right_iff, List.forall₂_same]
  intro entry _
  refine ⟨rfl, rfl, fun k => ?_⟩
  rw [Stmt.exists_mem_listings_iff]
  dsimp only
  omega

/-- Every statement is in one of the procedures. -/
theorem Program.exists_procedureEntry_iff {k : Nat}
    : (∃ e ∈ p.procedureEntries, e.start ≤ k ∧ k ≤ e.finish) ↔ ∃ s, (k, s) ∈ p.listing := by
  simp only [Program.procedureEntries, Program.listing, List.mem_map, List.mem_flatMap]
  constructor
  · rintro ⟨_, ⟨entry, member, rfl⟩, inside⟩
    dsimp only at inside
    have taken : entry.1 ≤ k ∧ k < entry.1 + Stmt.sizes entry.2.body := by omega
    obtain ⟨s, listed⟩ := Stmt.exists_mem_listings_iff.mpr taken
    exact ⟨s, entry, member, listed⟩
  · rintro ⟨s, entry, member, listed⟩
    have taken := Stmt.exists_mem_listings_iff.mp ⟨s, listed⟩
    refine ⟨_, ⟨entry, member, rfl⟩, ?_⟩
    dsimp only
    omega

/-- The tables of statements and of procedures number the statements of a program from one to `n`. -/
structure KnowledgeBase.Numbers (knowledge : KnowledgeBase) (p : Program) (n : Nat) : Prop where
  statements : knowledge.statements.length = n
  records : ∀ i e, knowledge.statements[i]? = some e →
    ∃ s, (i + 1, s) ∈ p.listing ∧ e.Records p (i + 1) s
  listed : ∀ k, (∃ s, (k, s) ∈ p.listing) ↔ 1 ≤ k ∧ k ≤ n
  lines : knowledge.statementLines = p.listing.map fun entry => (entry.1 : Int)
  hasLine : ∀ k, knowledge.hasLine k = true ↔ ∃ (m : Nat) (s : Stmt), k = m ∧ (m, s) ∈ p.listing
  laminar : ∀ e ∈ knowledge.statements, ∀ e' ∈ knowledge.statements,
    e.Around e' ∨ e'.Around e ∨ e.Before e' ∨ e'.Before e
  procedures : List.Forall₂ (fun entry e => ProcedureEntry.Records e entry.1 entry.2) p.numbered
    knowledge.procedures
  first : ∀ e ∈ knowledge.procedures.head?, e.start = 1
  consecutive : knowledge.procedures.IsChain fun e e' => e'.start = e.finish + 1
  last : ∀ e ∈ knowledge.procedures.getLast?, e.finish = n
  covered : ∀ k : Nat, (∃ e ∈ knowledge.procedures, e.start ≤ k ∧ k ≤ e.finish) ↔ 1 ≤ k ∧ k ≤ n

theorem Program.getElem?_listing {i line : Nat} {s : Stmt}
    (found : p.listing[i]? = some (line, s))
    : line = i + 1 := by
  have taken : (p.listing.map (·.1))[i]? = some line := by rw [List.getElem?_map, found]; rfl
  rw [p.listing_lines, List.getElem?_eq_some_iff] at taken
  obtain ⟨_, rfl⟩ := taken
  simp [Nat.add_comm]

theorem KnowledgeBase.Describes.numbers {knowledge : KnowledgeBase}
    (describes : knowledge.Describes p)
    : knowledge.Numbers p p.size := by
  have length : knowledge.statements.length = p.size := by
    rw [describes.statements, Program.statementEntries, List.length_map, p.length_listing]
  have entries : knowledge.statements = p.listing.map fun entry => entry.2.entry entry.1 :=
    describes.statements
  have procedures : knowledge.procedures = Program.entriesFrom 1 p.procedures :=
    describes.procedures
  refine
    { statements := length
      records := ?_
      listed := fun k => Program.exists_mem_listing_iff
      lines := ?_
      hasLine := ?_
      laminar := ?_
      procedures := describes.procedures ▸ p.procedureEntries_record
      first := fun e member => Program.start_of_mem_head? (procedures ▸ member)
      consecutive := procedures ▸ Program.isChain_entriesFrom 1 p.procedures
      last := ?_
      covered := ?_ }
  · intro i e found
    rw [entries, List.getElem?_map, Option.map_eq_some_iff] at found
    obtain ⟨⟨line, s⟩, found, rfl⟩ := found
    obtain rfl := Program.getElem?_listing found
    have listed := List.mem_of_getElem? found
    exact ⟨s, listed, Program.entry_records listed⟩
  · have numbered : (p.listing.map fun entry => (entry.1 : Int))
        = (p.listing.map (·.1)).map fun (m : Nat) => (m : Int) := by
      rw [List.map_map]
      rfl
    rw [KnowledgeBase.statementLines, length, numbered, p.listing_lines, List.range'_eq_map_range,
      List.map_map]
    exact List.map_congr_left fun i _ => by simp [Int.add_comm]
  · intro k
    simp only [KnowledgeBase.hasLine, length, Bool.and_eq_true, decide_eq_true_eq]
    constructor
    · rintro ⟨pos, le⟩
      obtain ⟨m, rfl⟩ := Int.eq_ofNat_of_zero_le pos.le
      have taken : 1 ≤ m ∧ m ≤ p.size := by omega
      obtain ⟨s, listed⟩ := Program.exists_mem_listing_iff.mpr taken
      exact ⟨m, s, rfl, listed⟩
    · rintro ⟨m, s, rfl, listed⟩
      have := Program.exists_mem_listing_iff.mp ⟨s, listed⟩
      omega
  · rw [entries]
    intro e member e' member'
    obtain ⟨⟨line, s⟩, listed, rfl⟩ := List.mem_map.mp member
    obtain ⟨⟨k, t⟩, listed', rfl⟩ := List.mem_map.mp member'
    exact Program.entries_laminar listed listed'
  · intro e member
    rw [procedures] at member
    rw [Program.finish_of_mem_getLast? member, Program.size]
    omega
  · intro k
    rw [describes.procedures, Program.exists_procedureEntry_iff, Program.exists_mem_listing_iff]

end ProgramQuery

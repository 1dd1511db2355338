import ProgramQuery.Proofs.Lists
import ProgramQuery.Proofs.Program.Names
import ProgramQuery.Proofs.Program.Outline
import ProgramQuery.Proofs.Program.Search

/-! Searches of a program's tree. A search for a number that no statement has goes through the whole tree,
so that no node is missing in it. A search for all nodes of a kind therefore answers, and it meets every
node once.
-/

namespace ProgramQuery

namespace Tree

variable {test : Tree → Bool} {places : List Tree}

mutual

/-- A search meets the nodes of a tree once each, in another order than that of the text. -/
theorem visitsThen_perm (refuses : test .missing = false) (t : Tree) (after : List Tree)
    : ((t.visitsThen after).filter test).Perm (t.nodes.filter test ++ after.filter test) := by
  cases t with
  | missing => simp [visitsThen, nodes, refuses]
  | node label text line children =>
    have below := visitsLastThen_perm refuses children after
    rw [visitsThen, nodes, List.filter_cons, List.filter_cons]
    split
    · exact below.cons _
    · exact below

theorem visitsLastThen_perm (refuses : test .missing = false) (trees after : List Tree)
    : ((visitsLastThen trees after).filter test).Perm
        ((nodesOf trees).filter test ++ after.filter test) := by
  cases trees with
  | nil => simp [visitsLastThen, nodesOf]
  | cons t rest =>
    have first := visitsThen_perm refuses t after
    rw [visitsLastThen, nodesOf, List.filter_append]
    refine (visitsLastThen_perm refuses rest _).trans ((first.append_left _).trans ?_)
    rw [← List.append_assoc]
    exact List.perm_append_comm.append_right _

end

theorem visits_perm (refuses : test .missing = false) (t : Tree)
    : (t.visits.filter test).Perm (t.nodes.filter test) := by
  simpa [visits] using visitsThen_perm refuses t []

/-- A search that finds nothing has met no place without a node. -/
theorem there_of_unfound (unfound : places.findM? (testing test) = .ok none) : .missing ∉ places := by
  induction places with
  | nil => simp
  | cons t rest ih =>
    cases t with
    | missing => cases unfound
    | node label text line children =>
      have tested : testing test (.node label text line children) = .ok _ := rfl
      rw [List.findM?, tested] at unfound
      cases passes : test (.node label text line children) with
      | true => simp [passes, bind, Except.bind, pure, Except.pure] at unfound
      | false =>
        rw [passes] at unfound
        simpa using ih unfound

theorem testing_of_there (there : .missing ∉ places) : ∀ t ∈ places, testing test t = .ok (test t) := by
  intro t member
  cases t with
  | missing => exact absurd member there
  | node => rfl

theorem findM?_of_there (there : .missing ∉ places)
    : places.findM? (testing test) = .ok (places.find? test) := by
  induction places with
  | nil => rfl
  | cons t rest ih =>
    rw [List.findM?, testing_of_there there t (by simp), List.find?]
    cases passes : test t with
    | true => rfl
    | false => exact ih fun member => there (.tail _ member)

theorem sum_sizeOf_lt (ts : List Tree) : (ts.map sizeOf).sum < sizeOf ts := by
  induction ts with
  | nil => simp
  | cons t rest ih =>
    simp only [List.map_cons, List.sum_cons, List.cons.sizeOf_spec]
    omega

theorem sum_sizeOf_children (t : Tree) : (t.children.map sizeOf).sum < sizeOf t := by
  cases t with
  | missing => simp [children]
  | node label text line ts =>
    have below := sum_sizeOf_lt ts
    simp only [children, node.sizeOf_spec]
    omega

theorem stack_decreases (t : Tree) (rest : List Tree)
    : ((t.children.reverse ++ rest).map sizeOf).sum < ((t :: rest).map sizeOf).sum := by
  have below := sum_sizeOf_children t
  simp only [List.map_append, List.map_reverse, List.sum_append, List.sum_reverse, List.map_cons,
    List.sum_cons]
  omega

/-- The places that are taken from a stack, on which the children of each are put in turn. -/
def taken : List Tree → List Tree
  | [] => []
  | t :: rest => t :: taken (t.children.reverse ++ rest)
termination_by stack => (stack.map sizeOf).sum
decreasing_by exact stack_decreases t rest

/-- The search with a stack, which stops at the first node that passes. -/
def firstTaken (test : Tree → Bool) : List Tree → Asked (Option Tree)
  | [] => return none
  | t :: rest => do
    if ← testing test t then return some t
    else firstTaken test (t.children.reverse ++ rest)
termination_by stack => (stack.map sizeOf).sum
decreasing_by exact stack_decreases t rest

mutual

theorem visitsThen_taken (t : Tree) (rest : List Tree)
    : t.visitsThen (taken rest) = taken (t :: rest) := by
  match t with
  | .missing => simp [visitsThen, taken, children]
  | .node label text line ts =>
    rw [visitsThen, visitsLastThen_taken ts rest, taken]
    rfl

theorem visitsLastThen_taken (ts rest : List Tree)
    : visitsLastThen ts (taken rest) = taken (ts.reverse ++ rest) := by
  match ts with
  | [] => rfl
  | t :: others =>
    -- the child that is put on the stack last is taken first
    rw [visitsLastThen, visitsThen_taken t rest, visitsLastThen_taken others (t :: rest)]
    simp

end

/-- The places of a tree in search order are taken from a stack that starts with the tree. -/
theorem visits_eq_taken (t : Tree) : t.visits = taken [t] := by
  have nothing : taken [] = [] := by rw [taken]
  have all := visitsThen_taken t []
  rwa [nothing] at all

/-- The search with a stack goes through the places that are taken from it. -/
theorem firstTaken_eq (stack : List Tree)
    : firstTaken test stack = (taken stack).findM? (testing test) := by
  fun_induction taken stack with
  | case1 => rw [firstTaken]; rfl
  | case2 t rest ih =>
    rw [firstTaken, List.findM?]
    refine congrArg (testing test t >>= ·) (funext fun passes => ?_)
    cases passes with
    | true => rfl
    | false => exact ih

theorem firstTaken_eq_find? (t : Tree) : firstTaken test [t] = t.find? test := by
  rw [firstTaken_eq, find?, visits_eq_taken]

/-- One number after the other is looked up until one is not found. -/
inductive Counts (t : Tree) : Nat → Nat → Prop where
  | done {n : Nat} : firstTaken (hasLine (n + 1)) [t] = .ok none → Counts t n n
  | next {line n : Nat} {found : Tree} : firstTaken (hasLine (line + 1)) [t] = .ok (some found) →
      Counts t (line + 1) n → Counts t line n

theorem Counts.of_found {t : Tree} {n line : Nat}
    (found : ∀ k : Nat, 1 ≤ k → k ≤ n → ∃ s, t.find? (hasLine k) = .ok (some s))
    (beyond : t.find? (hasLine (n + 1)) = .ok none) (below : line ≤ n)
    : Counts t line n := by
  -- by induction on how many numbers are left
  induction more : n - line generalizing line with
  | zero =>
    obtain rfl : line = n := by omega
    exact .done (by rw [firstTaken_eq_find?, beyond])
  | succ k ih =>
    obtain ⟨s, here⟩ := found (line + 1) (by omega) (by omega)
    exact .next (by rw [firstTaken_eq_find?]; exact_mod_cast here) (ih (by omega) (by omega))

/-- Counting up stops at the last number of an unbroken run. -/
theorem climb_eq {n fuel line : Nat} (taken : ∀ k : Nat, places.any (hasLine (k + 1)) = decide (k < n))
    (below : line ≤ n) (enough : n ≤ line + fuel)
    : lastLine.climb places fuel line = n := by
  induction fuel generalizing line with
  | zero => exact Nat.le_antisymm below enough
  | succ fuel ih =>
    rw [lastLine.climb, taken]
    split
    next before => exact ih (of_decide_eq_true before) (by omega)
    next behind =>
      have : ¬ line < n := by simpa using behind
      omega

/-- The searches of a tree with so many statements: a number leads to the only statement that has it,
a kind to all its nodes, and looking up one number after the other to the last one. -/
structure Searchable (t : Tree) (n : Nat) : Prop where
  count : t.statementNodes.length = n
  statement : ∀ line : Nat, 1 ≤ line → line ≤ n → ∃ s, t.find? (hasLine line) = .ok (some s)
    ∧ t.statementNodes.filter (hasLine line) = [s]
  beyond : ∀ line : Int, n < line → t.find? (hasLine line) = .ok none
  last : t.lastLine = .ok n
  counted : t.Counts 0 n
  all : ∀ label, ∃ found, t.findAll (hasLabel label) = .ok found
    ∧ found.Perm (t.nodes.filter (hasLabel label))

end Tree

namespace Program

variable (p : Program) (title : String)

theorem there : .missing ∉ (p.toTree title).visits :=
  Tree.there_of_unfound (p.find?_beyond (Nat.lt_succ_self p.size))

/-- A number is met in a search if a statement has it. -/
theorem any_hasLine (k : Nat)
    : (p.toTree title).visits.any (Tree.hasLine (k + 1)) = decide (k < p.size) := by
  have found : (p.toTree title).find? (Tree.hasLine (k + 1 : Nat))
      = .ok ((p.toTree title).visits.find? (Tree.hasLine (k + 1 : Nat))) :=
    Tree.findM?_of_there (p.there title)
  rw [← Nat.cast_succ, ← List.isSome_find?]
  by_cases taken : k < p.size
  · obtain ⟨s, listed⟩ := Program.exists_mem_listing_iff.mpr ⟨Nat.succ_pos k, taken⟩
    rw [p.find?_line listed] at found
    rw [Nat.succ_eq_add_one, ← Except.ok.inj found, decide_eq_true taken, Option.isSome_some]
  · rw [p.find?_beyond (by omega)] at found
    rw [Nat.succ_eq_add_one, ← Except.ok.inj found, decide_eq_false taken, Option.isSome_none]

theorem length_statementNodes : (p.toTree title).statementNodes.length = p.size := by
  rw [p.statementNodes, List.length_map, p.length_listing]

theorem statement_found {line : Nat} (first : 1 ≤ line) (last : line ≤ p.size)
    : ∃ s, (p.toTree title).find? (Tree.hasLine line) = .ok (some s)
      ∧ (p.toTree title).statementNodes.filter (Tree.hasLine line) = [s] := by
  have distinct : ((p.toTree title).statementNodes.map Tree.line?).Nodup := by
    rw [p.lines_of_statementNodes]
    exact (List.nodup_map_iff fun i j same => by simpa using same).mpr List.nodup_range'
  obtain ⟨s, listed⟩ := Program.exists_mem_listing_iff.mpr ⟨first, last⟩
  have member : s.toTree line ∈ (p.toTree title).statementNodes := by
    rw [p.statementNodes]
    exact List.mem_map.mpr ⟨_, listed, rfl⟩
  have own : (s.toTree line).line? = some (line : Int) := by cases s <;> rfl
  refine ⟨s.toTree line, p.find?_line listed, List.perm_singleton.mp ?_⟩
  refine (List.perm_ext_iff_of_nodup (distinct.of_map.filter _) (List.nodup_singleton _)).mpr ?_
  intro t
  rw [List.mem_filter, List.mem_singleton, Tree.hasLine, beq_iff_eq]
  constructor
  · rintro ⟨here, same⟩
    exact List.inj_on_of_nodup_map distinct here member (same.trans own.symm)
  · rintro rfl
    exact ⟨member, own⟩

theorem searchable : (p.toTree title).Searchable p.size where
  count := p.length_statementNodes title
  statement _ := p.statement_found title
  beyond line behind := by
    obtain ⟨n, rfl⟩ := Int.eq_ofNat_of_zero_le (show 0 ≤ line by omega)
    exact p.find?_beyond (by omega)
  last := by
    have nodes : (p.toTree title).findAll (fun _ => true) = .ok (p.toTree title).visits := by
      rw [Tree.findAll, filterM_eq_filter (Tree.testing_of_there (p.there title)), List.filter_true]
    have enough : p.size ≤ (p.toTree title).visits.length :=
      calc p.size = (p.toTree title).statementNodes.length := (p.length_statementNodes title).symm
        _ = ((p.toTree title).visits.filter Tree.isStatement).length :=
          (Tree.visits_perm rfl _).length_eq.symm
        _ ≤ (p.toTree title).visits.length := List.length_filter_le _ _
    rw [Tree.lastLine, nodes]
    exact congrArg Except.ok (Tree.climb_eq (p.any_hasLine title) (Nat.zero_le _) (by omega))
  counted := by
    refine .of_found (fun k first last => ?_) (by exact_mod_cast p.find?_beyond (Nat.lt_succ_self _))
      (Nat.zero_le _)
    obtain ⟨s, found, -⟩ := p.statement_found title first last
    exact ⟨s, found⟩
  all _ := ⟨_, filterM_eq_filter (Tree.testing_of_there (p.there title)), Tree.visits_perm rfl _⟩

end Program

/-- In the tree of an accepted text every number up to that of the last
statement leads to its statement, and none of the other nodes with that number; later numbers lead to
nothing; the last number is found; and a search by kind gives every node of the kind once.
-/
theorem Analysis.searchable_of_accepted {code file : String} {a : Analysis}
    (accepted : Analysis.ofText code = .ok a)
    : (a.program.toTree file).Searchable a.stop.line := by
  obtain ⟨-, -, -, size, -⟩ := Analysis.tokens_of_accepted accepted
  exact size ▸ a.program.searchable file

/-- A loop with an assignment in it, whose nodes carry the number of the assignment. -/
theorem Analysis.searchable_of_loop
    : ∃ a, Analysis.ofText "procedure p \x7b while i \x7b x = x + 1; \x7d x = i; \x7d" = .ok a
      ∧ (a.program.toTree "code.txt").Searchable 3 := by
  refine exists_ok_of (fun a => a.stop.line = 3) (by decide +kernel) fun a accepted lines => ?_
  exact lines ▸ Analysis.searchable_of_accepted accepted

end ProgramQuery

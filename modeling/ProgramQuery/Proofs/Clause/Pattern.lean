import ProgramQuery.Proofs.Clause.Nodes
import ProgramQuery.Proofs.Program.Search
import ProgramQuery.Proofs.Query.Meaning
import ProgramQuery.Proofs.Query.Shape

/-! Patterns that ask for a part of what is assigned. The search goes down from the whole value and
stops at whatever looks like the expression asked for. It is therefore exact where nothing looks like
that expression without being as large.
-/

namespace ProgramQuery

open ProgramQuery.Relation Query

namespace Expr

def heading : Expr → String × String
  | .name x => ("NAME", x)
  | .literal digits => ("INTEGER", digits)
  | .binary op _ _ => (op.label, op.symbol)

def operands : Expr → List Expr
  | .binary _ left right => [left, right]
  | _ => []

def Near (e t : Expr) : Prop :=
  e.heading.1 = t.heading.1 ∨ e.heading.2 = t.heading.2

/-- The tops are the same, and those of the operands are near. -/
def Resembles (e t : Expr) : Prop :=
  e.heading = t.heading ∧ List.Forall₂ Near e.operands t.operands

instance (e t : Expr) : Decidable (e.Near t) :=
  inferInstanceAs (Decidable (_ ∨ _))

instance (e t : Expr) : Decidable (e.Resembles t) :=
  inferInstanceAs (Decidable (_ ∧ _))

theorem toTree_eq (e : Expr) (line : Int)
    : e.toTree line = .node e.heading.1 e.heading.2 line (e.operands.map (toTree line)) := by
  cases e <;> rfl

/-- The label tells how many operands there are. -/
theorem length_operands {e t : Expr} (same : e.heading.1 = t.heading.1)
    : e.operands.length = t.operands.length := by
  have differs (op : Operator) : op.label ≠ "NAME" ∧ op.label ≠ "INTEGER" := by cases op <;> decide
  cases e <;> cases t <;> simp_all [heading, operands, eq_comm]

theorem Resembles.refl (e : Expr) : e.Resembles e :=
  ⟨rfl, List.forall₂_same.mpr fun _ _ => .inl rfl⟩

theorem partsAgree_toTree {es ts : List Expr} (lengths : es.length = ts.length) {line line' : Int}
    : Tree.partsAgree (es.map (toTree line)) (ts.map (toTree line'))
      = .ok (decide (List.Forall₂ Near es ts)) := by
  induction es generalizing ts with
  | nil =>
    cases List.length_eq_zero_iff.mp lengths.symm
    rfl
  | cons e es ih =>
    cases ts with
    | nil => cases lengths
    | cons t ts =>
      have agree := ih (Nat.succ.inj lengths)
      rw [List.map_cons, List.map_cons, Tree.partsAgree, agree, toTree_eq e, toTree_eq t]
      by_cases near : e.Near t
      · rcases near with label | text <;>
          simp [Tree.heading, Near, bind, Except.bind, *]
      · obtain ⟨label, text⟩ := not_or.mp near
        simp [Tree.heading, near, label, text, bind, Except.bind, pure, Except.pure]

theorem looksLike_toTree (e t : Expr) (line line' : Int)
    : (e.toTree line).looksLike (t.toTree line') = .ok (decide (e.Resembles t)) := by
  rw [toTree_eq e, toTree_eq t]
  by_cases same : e.heading = t.heading
  · have lengths := length_operands (congrArg Prod.fst same)
    simp [Tree.looksLike, Tree.heading, Tree.children, bind, Except.bind, Resembles, same, lengths,
      partsAgree_toTree lengths]
  · simp [Tree.looksLike, Tree.heading, bind, Except.bind, pure, Except.pure, Resembles, same]

/-- Whether a search in an expression finds another one. -/
def finds : Expr → Expr → Bool
  | .name x, e => decide (e.Resembles (.name x))
  | .literal digits, e => decide (e.Resembles (.literal digits))
  | .binary op left right, e =>
    match e with
    | .binary op' left' right' =>
      if Resembles (.binary op' left' right') (.binary op left right) then
        left.finds left' && right.finds right'
      else left.finds (.binary op' left' right') || right.finds (.binary op' left' right')
    | _ => left.finds e || right.finds e

theorem fits_eq (t e : Expr) (line line' : Int)
    : (t.toTree line).fits true (e.toTree line')
      = if e.Resembles t then
          Tree.fitsAll true (t.operands.map (toTree line)) (e.operands.map (toTree line'))
        else Tree.fitsSome true (t.operands.map (toTree line)) (e.toTree line') := by
  have looks := looksLike_toTree e t line' line
  rw [toTree_eq t] at looks ⊢
  rw [Tree.fits, looks, show (e.toTree line').children = e.operands.map (toTree line') by
    rw [toTree_eq, Tree.children]]
  by_cases resembles : e.Resembles t <;> simp [resembles, bind, Except.bind]

theorem fits_toTree (t e : Expr) (line line' : Int)
    : (t.toTree line).fits true (e.toTree line') = .ok (t.finds e) := by
  induction t generalizing e with
  | name x =>
    rw [fits_eq, finds]
    by_cases resembles : e.Resembles (.name x) <;>
      simp [resembles, operands, Tree.fitsAll, Tree.fitsSome, pure, Except.pure]
  | literal digits =>
    rw [fits_eq, finds]
    by_cases resembles : e.Resembles (.literal digits) <;>
      simp [resembles, operands, Tree.fitsAll, Tree.fitsSome, pure, Except.pure]
  | binary op left right ihLeft ihRight =>
    rw [fits_eq]
    have some_ : Tree.fitsSome true ([left, right].map (toTree line)) (e.toTree line')
        = .ok (left.finds e || right.finds e) := by
      cases inLeft : left.finds e <;> cases inRight : right.finds e <;>
        simp [Tree.fitsSome, ihLeft, ihRight, inLeft, inRight, bind, Except.bind, pure, Except.pure]
    cases e with
    | binary op' left' right' =>
      rw [finds]
      split
      · cases inLeft : left.finds left' <;> cases inRight : right.finds right' <;>
          simp [operands, Tree.fitsAll, ihLeft, ihRight, inLeft, inRight, bind, Except.bind, pure,
            Except.pure]
      · exact some_
    | name x =>
      rw [if_neg fun resembles => by simpa [operands] using resembles.2]
      exact some_
    | literal digits =>
      rw [if_neg fun resembles => by simpa [operands] using resembles.2]
      exact some_

theorem finds_name {x : String} {e : Expr} : (name x).finds e = true ↔ e = .name x := by
  cases e <;> simp [finds, Resembles, heading, operands]

theorem finds_literal {digits : String} {e : Expr}
    : (literal digits).finds e = true ↔ e = .literal digits := by
  cases e <;> simp [finds, Resembles, heading, operands]

/-- A search stops where the top looks alike, and otherwise goes on in the operands. -/
theorem finds_binary {op : Operator} {left right e : Expr}
    : (binary op left right).finds e = true
      ↔ if e.Resembles (.binary op left right) then
          ∃ left' right', e = .binary op left' right' ∧ left.finds left' = true
            ∧ right.finds right' = true
        else left.finds e = true ∨ right.finds e = true := by
  cases e with
  | name x => simp [finds, Resembles, operands]
  | literal digits => simp [finds, Resembles, operands]
  | binary op' left' right' =>
    rw [finds]
    split
    next alike =>
      have same : op' = op := by
        have label := congrArg Prod.fst alike.1
        cases op <;> cases op' <;> first | rfl | exact absurd label (by simp [heading, Operator.label])
      simp [same]
    next => simp

theorem finds_self (e : Expr) : e.finds e = true := by
  induction e with
  | name x => exact finds_name.mpr rfl
  | literal digits => exact finds_literal.mpr rfl
  | binary op left right ihLeft ihRight =>
    rw [finds_binary, if_pos (Resembles.refl _)]
    exact ⟨left, right, rfl, ihLeft, ihRight⟩

theorem length_parts_binary {op : Operator} {left right : Expr}
    : (binary op left right).parts.length = left.parts.length + right.parts.length + 1 := by
  simp [parts]

/-- A part of an expression is the expression or smaller. -/
theorem eq_or_lt_of_mem_parts {t e : Expr} (part : e ∈ t.parts)
    : e = t ∨ e.parts.length < t.parts.length := by
  induction t with
  | name x => exact .inl (List.mem_singleton.mp part)
  | literal digits => exact .inl (List.mem_singleton.mp part)
  | binary op left right ihLeft ihRight =>
    rw [length_parts_binary]
    simp only [parts, List.mem_cons, List.mem_append] at part
    rcases part with rfl | part | part
    · exact .inl rfl
    · rcases ihLeft part with rfl | smaller <;> omega
    · rcases ihRight part with rfl | smaller <;> omega

/-- What is found is not larger than what it is found in, and it is the whole if it is as large. -/
theorem length_parts_le_of_finds {t e : Expr} (found : t.finds e = true)
    : e.parts.length ≤ t.parts.length ∧ (t.parts.length ≤ e.parts.length → e = t) := by
  induction t generalizing e with
  | name x => simp [finds_name.mp found]
  | literal digits => simp [finds_literal.mp found]
  | binary op left right ihLeft ihRight =>
    rw [finds_binary] at found
    rw [length_parts_binary]
    split at found
    · obtain ⟨left', right', rfl, first, second⟩ := found
      have ⟨first, whole⟩ := ihLeft first
      have ⟨second, whole'⟩ := ihRight second
      rw [length_parts_binary]
      exact ⟨by omega, fun large => by rw [whole (by omega), whole' (by omega)]⟩
    · rcases found with found | found
      · have := (ihLeft found).1
        exact ⟨by omega, fun large => by omega⟩
      · have := (ihRight found).1
        exact ⟨by omega, fun large => by omega⟩

/-- Whatever looks like the first expression within the second is as large as it. -/
def Distinct (e t : Expr) : Prop :=
  ∀ u ∈ t.parts, e.Resembles u → u.parts.length = e.parts.length

theorem finds_iff_mem_parts {t e : Expr} (distinct : e.Distinct t)
    : t.finds e = true ↔ e ∈ t.parts := by
  induction t with
  | name x => simp [finds_name, parts]
  | literal digits => simp [finds_literal, parts]
  | binary op left right ihLeft ihRight =>
    by_cases alike : e.Resembles (.binary op left right)
    · have large := distinct _ (by simp [parts]) alike
      constructor
      · intro found
        rw [(length_parts_le_of_finds found).2 large.le]
        simp [parts]
      · intro part
        obtain rfl := (eq_or_lt_of_mem_parts part).resolve_right (by omega)
        exact finds_self _
    · have other : e ≠ .binary op left right := fun same => alike (same ▸ .refl e)
      rw [finds_binary, if_neg alike,
        ihLeft fun u part => distinct u (by simp [parts, part]),
        ihRight fun u part => distinct u (by simp [parts, part])]
      simp [parts, other]

/-- At most one operator, and no operand that is spelled like one. -/
def Shallow (e : Expr) : Prop :=
  ∀ d ∈ e.operands, d.operands = [] ∧ ∀ op : Operator, d.heading.2 ≠ op.symbol

theorem length_parts_of_leaf {e : Expr} (leaf : e.operands = []) : e.parts.length = 1 := by
  cases e with
  | binary => cases leaf
  | _ => rfl

theorem Shallow.distinct {e : Expr} (shallow : e.Shallow) (t : Expr) : e.Distinct t := by
  have leaf {d d' : Expr} (operand : d ∈ e.operands) (near : d.Near d') : d'.operands = [] := by
    obtain ⟨leaf, unlike⟩ := shallow d operand
    rcases near with label | text
    · exact List.eq_nil_of_length_eq_zero (by rw [← length_operands label, leaf, List.length_nil])
    · cases d' with
      | binary op' => exact absurd text (unlike op')
      | _ => rfl
  intro u _ ⟨_, near⟩
  cases e with
  | binary op left right =>
    cases u with
    | binary op' left' right' =>
      obtain ⟨first, rest⟩ := List.forall₂_cons.mp near
      obtain ⟨second, -⟩ := List.forall₂_cons.mp rest
      have isLeaf (d : Expr) (operand : d ∈ [left, right]) := (shallow d operand).1
      simp only [length_parts_binary,
        length_parts_of_leaf (isLeaf left (by simp)), length_parts_of_leaf (isLeaf right (by simp)),
        length_parts_of_leaf (leaf (by simp [operands]) first),
        length_parts_of_leaf (leaf (by simp [operands]) second)]
    | _ => simp [operands] at near
  | _ =>
    have none : u.operands = [] := by simpa [operands] using near
    exact length_parts_of_leaf none

end Expr

namespace Query

/-- A variable by its name, or any variable. -/
def Reference.Names (target : Reference) (name : String) : Prop :=
  target = .anything ∨ target = .name name

variable {p : Program} {knowledge : KnowledgeBase} {q : Query} {x title : String} {target : Reference}
  {e : Expr}

theorem mem_linesOfKind_assign (describes : knowledge.Describes p) {n : Int}
    : n ∈ knowledge.linesOfKind "ASSIGN"
      ↔ ∃ (line : Nat) (name : String) (value : Expr),
        (line, Stmt.assign name value) ∈ p.listing ∧ n = line := by
  simp only [KnowledgeBase.linesOfKind, describes.statements, Program.statementEntries,
    List.mem_map, List.mem_filter, beq_iff_eq]
  constructor
  · rintro ⟨_, ⟨⟨⟨line, s⟩, listed, rfl⟩, kind⟩, rfl⟩
    cases s with
    | assign name value => exact ⟨line, name, value, listed, rfl⟩
    | _ => exact absurd kind (by simp [Stmt.entry, Stmt.kind])
  · rintro ⟨line, name, value, listed, rfl⟩
    exact ⟨_, ⟨⟨_, listed, rfl⟩, rfl⟩, rfl⟩

theorem mem_linesOfKindAndValue (describes : knowledge.Describes p) {n : Int} {kind value : String}
    : n ∈ knowledge.linesOfKindAndValue kind value
      ↔ ∃ line s, (line, s) ∈ p.listing ∧ s.kind = kind ∧ s.head = value ∧ n = (line : Nat) := by
  simp only [KnowledgeBase.linesOfKindAndValue, describes.statements, Program.statementEntries,
    List.mem_map, List.mem_filter, beq_iff_eq, Bool.and_eq_true]
  constructor
  · rintro ⟨_, ⟨⟨⟨line, s⟩, listed, rfl⟩, kind, value⟩, rfl⟩
    exact ⟨line, s, listed, kind, value, rfl⟩
  · rintro ⟨line, s, listed, kind, value, rfl⟩
    exact ⟨_, ⟨⟨_, listed, rfl⟩, kind, value⟩, rfl⟩

theorem mem_linesOfKindAndValue_assign (describes : knowledge.Describes p) {n : Int} {name : String}
    : n ∈ knowledge.linesOfKindAndValue "ASSIGN" name
      ↔ ∃ (line : Nat) (value : Expr), (line, Stmt.assign name value) ∈ p.listing ∧ n = line := by
  rw [mem_linesOfKindAndValue describes]
  constructor
  · rintro ⟨line, s, listed, kind, rfl, rfl⟩
    cases s with
    | assign target e => exact ⟨line, e, listed, rfl⟩
    | _ => exact absurd kind (by simp [Stmt.kind])
  · rintro ⟨line, value, listed, rfl⟩
    exact ⟨line, _, listed, rfl, rfl, rfl⟩

/-- The candidates are the assignments to the variable named. -/
theorem candidates_assignment (describes : knowledge.Describes p)
    (typed : q.typeOf? x = some .assignment) (plain : target = .anything ∨ ∃ y, target = .name y)
    (side : RightSide)
    : ∃ found, Clause.candidates knowledge (q.patternTree (.assignment x target side)) = .ok found
      ∧ ∀ n, n ∈ found ↔ ∃ (line : Nat) (name : String) (value : Expr),
          (line, Stmt.assign name value) ∈ p.listing ∧ n = line ∧ target.Names name := by
  have synonym : q.synonymTree x [] = .leaf "ASSIGN" x := by
    rw [synonymTree, typed]
    rfl
  rw [patternTree, synonym]
  rcases plain with rfl | ⟨y, rfl⟩
  · refine ⟨_, candidates_node, fun n => ?_⟩
    rw [if_pos (.inr rfl), mem_linesOfKind_assign describes]
    simp [Reference.Names]
  · refine ⟨_, candidates_node, fun n => ?_⟩
    rw [if_neg (by decide), mem_linesOfKindAndValue_assign describes]
    simp only [Reference.Names, reduceCtorEq, false_or, Reference.name.injEq]
    constructor
    · rintro ⟨line, value, listed, rfl⟩
      exact ⟨line, y, value, listed, rfl, rfl⟩
    · rintro ⟨line, name, value, listed, rfl, rfl⟩
      exact ⟨line, value, listed, rfl⟩

theorem assignedFits_eq {deep fits : Bool} {line : Nat} {name : String} {value : Expr}
    (listed : (line, Stmt.assign name value) ∈ p.listing)
    (compared : (value.toTree line).fits deep (e.toTree 0) = .ok fits)
    : Clause.assignedFits (p.toTree title) deep (e.toTree 0) line = .ok fits := by
  rw [Expr.toTree_eq value] at compared
  rw [Clause.assignedFits, Program.find?_line listed]
  simp [Stmt.toTree, Tree.part, bind, Except.bind, Expr.toTree_eq value, compared]

/-- The assignments selected are those to the variable named whose value passes the check that the right
side stands for. There is no answer exactly if no assignment is to that variable.
-/
theorem patternLines_assignment {side : RightSide} {check : Int → Asked Bool} {fits : Expr → Bool}
    (describes : knowledge.Describes p) (typed : q.typeOf? x = some .assignment)
    (plain : target = .anything ∨ ∃ y, target = .name y)
    (searched : ∀ found, Clause.fittingAssignments (p.toTree title) side.tree found = found.filterM check)
    (checked : ∀ {line : Nat} {name : String} {value : Expr},
      (line, Stmt.assign name value) ∈ p.listing → check line = .ok (fits value))
    : ∃ found?, Clause.patternLines (p.toTree title) knowledge
          (q.patternTree (.assignment x target side)) = .ok found?
      ∧ (found? = none ↔ ∀ (line : Nat) (name : String) (value : Expr),
          (line, Stmt.assign name value) ∈ p.listing → ¬ target.Names name)
      ∧ ∀ thing, (∃ found, found? = some found ∧ thing ∈ found.members)
        ↔ ∃ (line : Nat) (name : String) (value : Expr), (line, Stmt.assign name value) ∈ p.listing
          ∧ thing = .line line ∧ target.Names name ∧ fits value = true := by
  obtain ⟨found, candidates, all⟩ := candidates_assignment describes typed plain side
  have search : Answers False (found.filterM check) fun kept =>
      ∀ n, n ∈ kept ↔ n ∈ found ∧ ∃ (line : Nat) (name : String) (value : Expr),
        (line, Stmt.assign name value) ∈ p.listing ∧ n = line ∧ fits value = true := by
    refine Answers.filterM fun n member => ?_
    obtain ⟨line, name, value, listed, rfl, -⟩ := (all n).mp member
    rw [checked listed]
    refine .ok ⟨fun passes => ⟨line, name, value, listed, rfl, passes⟩, ?_⟩
    rintro ⟨line', name', value', listed', same, passes⟩
    obtain rfl := Int.ofNat_inj.mp same
    cases Program.listing_unique listed listed'
    exact passes
  have run : Clause.patternLines (p.toTree title) knowledge (q.patternTree (.assignment x target side))
      = if found.isEmpty then .ok none
        else do return some (.ofList (lines (← found.filterM check))) := by
    rw [Clause.patternLines, candidates, ← searched]
    rfl
  rw [run]
  split
  next empty =>
    have nothing (line : Nat) (name : String) (value : Expr)
        (listed : (line, Stmt.assign name value) ∈ p.listing) (names : target.Names name)
        : False := by
      have member := (all line).mpr ⟨line, name, value, listed, rfl, names⟩
      rw [List.isEmpty_iff.mp empty] at member
      cases member
    refine ⟨none, rfl, iff_of_true rfl nothing, fun thing => iff_of_false (by simp) ?_⟩
    rintro ⟨line, name, value, listed, rfl, names, -⟩
    exact nothing line name value listed names
  next some_ =>
    cases kept : found.filterM check with
    | error fault =>
      rw [kept] at search
      exact search.elim
    | ok kept =>
      rw [kept] at search
      refine ⟨_, rfl, iff_of_false (by simp) fun none => ?_, fun thing => ?_⟩
      · obtain ⟨n, member⟩ := List.exists_mem_of_ne_nil found (by simpa using some_)
        obtain ⟨line, name, value, listed, -, names⟩ := (all n).mp member
        exact none line name value listed names
      simp only [Option.some.injEq, exists_eq_left', EntitySet.ofList, List.mem_eraseDups, lines,
        List.mem_map]
      constructor
      · rintro ⟨n, member, rfl⟩
        obtain ⟨candidate, line, name, value, listed, rfl, passes⟩ := (search n).mp member
        obtain ⟨line', name', value', listed', same, names⟩ := (all _).mp candidate
        obtain rfl := Int.ofNat_inj.mp same
        cases Program.listing_unique listed listed'
        exact ⟨line, name, value, listed, rfl, names, passes⟩
      · rintro ⟨line, name, value, listed, rfl, names, passes⟩
        exact ⟨line, (search line).mpr ⟨(all line).mpr ⟨line, name, value, listed, rfl, names⟩, line,
          name, value, listed, rfl, passes⟩, rfl⟩

end Query

/-- A pattern that asks for an expression as part of a value always has
an answer, which holds assignments to the variable named only. Of these it holds the ones whose value
has the expression as a part, if the expression has at most one operator, or if nothing in the value
looks like it without being as large.
-/
theorem Analysis.patternLines_exact_on_parts {code file : String} {a : Analysis}
    (accepted : Analysis.ofText code = .ok a) {q : Query} {x : String} {target : Reference}
    (typed : q.typeOf? x = some .assignment) (plain : target = .anything ∨ ∃ y, target = .name y)
    (e : Expr)
    : ∃ found?, Clause.patternLines (a.program.toTree file) a.knowledge
          (q.patternTree (.assignment x target (.part e))) = .ok found?
      ∧ (∀ found, found? = some found → ∀ thing ∈ found.members,
          ∃ (line : Nat) (name : String) (value : Expr),
            (line, Stmt.assign name value) ∈ a.program.listing ∧ thing = .line line
            ∧ target.Names name)
      ∧ ∀ (line : Nat) (name : String) (value : Expr),
          (line, Stmt.assign name value) ∈ a.program.listing → e.Shallow ∨ e.Distinct value →
          ((∃ found, found? = some found ∧ .line line ∈ found.members)
            ↔ target.Names name ∧ e ∈ value.parts) := by
  have searched (found : List Int)
      : Clause.fittingAssignments (a.program.toTree file) (RightSide.part e).tree found
        = found.filterM (Clause.assignedFits (a.program.toTree file) true (e.toTree 0)) := rfl
  obtain ⟨found?, answered, -, all⟩ := patternLines_assignment (Analysis.describes accepted) typed plain
    searched fun listed => assignedFits_eq listed (Expr.fits_toTree _ e _ 0)
  refine ⟨found?, answered, ?_, fun line name value listed exact_ => ?_⟩
  · intro found isFound thing member
    obtain ⟨line, name, value, listed, isLine, names, -⟩ := (all thing).mp ⟨found, isFound, member⟩
    exact ⟨line, name, value, listed, isLine, names⟩
  · have finds := Expr.finds_iff_mem_parts (exact_.elim (·.distinct value) id)
    rw [all, ← finds]
    constructor
    · rintro ⟨line', name', value', listed', same, names, found⟩
      obtain rfl := Int.ofNat_inj.mp (Entity.line.inj same)
      cases Program.listing_unique listed listed'
      exact ⟨names, found⟩
    · rintro ⟨names, found⟩
      exact ⟨line, name, value, listed, rfl, names, found⟩

def Expr.sum (first : String) (rest : List String) : Expr :=
  rest.foldl (fun e x => .binary .plus e (.name x)) (.name first)

def Stmt.assigns (name : String) (value : Expr) : Stmt → Bool
  | .assign name' value' => decide (name' = name ∧ value' = value)
  | _ => false

theorem Program.mem_listing_of_assigns {p : Program} {line : Nat} {name : String} {value : Expr}
    (found : (p.listing.any fun entry => entry.1 == line && entry.2.assigns name value) = true)
    : (line, Stmt.assign name value) ∈ p.listing := by
  obtain ⟨⟨line', s⟩, listed, same⟩ := List.any_eq_true.mp found
  cases s with
  | assign name' value' => simp_all [Stmt.assigns]
  | _ => simp [Stmt.assigns] at same

/-- A sum of three names is found as a factor, and a shorter sum beside it does not matter. -/
theorem Analysis.patternLines_exact_on_factor
    : ∃ a found, Analysis.ofText "procedure p \x7b x = (a+b+c)*(a+b); \x7d" = .ok a
      ∧ (Expr.sum "a" ["b", "c"]).Distinct
          (.binary .times (Expr.sum "a" ["b", "c"]) (Expr.sum "a" ["b"]))
      ∧ Clause.patternLines (a.program.toTree "code.txt") a.knowledge
          (assignments.patternTree (.assignment "a" (.name "x") (.part (Expr.sum "a" ["b", "c"]))))
        = .ok (some found)
      ∧ .line 1 ∈ found.members := by
  have evaluated : ((Analysis.ofText "procedure p \x7b x = (a+b+c)*(a+b); \x7d").toOption.any fun a =>
      a.program.listing.any fun entry => entry.1 == 1 && entry.2.assigns "x"
        (.binary .times (Expr.sum "a" ["b", "c"]) (Expr.sum "a" ["b"]))) = true := by
    decide +kernel
  obtain ⟨a, accepted, listed⟩ := exists_ok evaluated
  have listed := Program.mem_listing_of_assigns listed
  have distinct : (Expr.sum "a" ["b", "c"]).Distinct
      (.binary .times (Expr.sum "a" ["b", "c"]) (Expr.sum "a" ["b"])) := by
    unfold Expr.Distinct
    decide
  obtain ⟨_, answered, -, exact_⟩ := @Analysis.patternLines_exact_on_parts _ "code.txt" a accepted
    assignments "a" (.name "x") (by decide) (.inr ⟨"x", rfl⟩) (Expr.sum "a" ["b", "c"])
  obtain ⟨found, rfl, member⟩ := (exact_ 1 "x" _ listed (.inr distinct)).mpr ⟨.inr rfl, by decide⟩
  exact ⟨a, found, accepted, distinct, answered, member⟩

/-- Of longer sums, one that begins with the sum asked for is missed, and one that does not have it as
a part is found.
-/
theorem Analysis.patternLines_of_longer_sums
    : ∃ a found, Analysis.ofText "procedure p \x7b x = a+b+c+d; y = a+b+d+c; \x7d" = .ok a
      ∧ (1, Stmt.assign "x" (Expr.sum "a" ["b", "c", "d"])) ∈ a.program.listing
      ∧ (2, Stmt.assign "y" (Expr.sum "a" ["b", "d", "c"])) ∈ a.program.listing
      ∧ Expr.sum "a" ["b", "c"] ∈ (Expr.sum "a" ["b", "c", "d"]).parts
      ∧ Expr.sum "a" ["b", "c"] ∉ (Expr.sum "a" ["b", "d", "c"]).parts
      ∧ Clause.patternLines (a.program.toTree "code.txt") a.knowledge
          (assignments.patternTree (.assignment "a" .anything (.part (Expr.sum "a" ["b", "c"]))))
        = .ok (some found)
      ∧ found.members = [.line 2] := by
  have evaluated : ((Analysis.ofText
        "procedure p \x7b x = a+b+c+d; y = a+b+d+c; \x7d").toOption.any fun a =>
      (a.program.listing.any fun entry => entry.1 == 1 && entry.2.assigns "x"
        (Expr.sum "a" ["b", "c", "d"]))
      && (a.program.listing.any fun entry => entry.1 == 2 && entry.2.assigns "y"
        (Expr.sum "a" ["b", "d", "c"]))
      && (Clause.patternLines (a.program.toTree "code.txt") a.knowledge
          (assignments.patternTree (.assignment "a" .anything
            (.part (Expr.sum "a" ["b", "c"]))))).toOption.any fun found? =>
        found?.any fun found => decide (found.members = [.line 2])) = true := by
    decide +kernel
  obtain ⟨a, accepted, evaluated⟩ := exists_ok evaluated
  simp only [Bool.and_eq_true] at evaluated
  obtain ⟨⟨first, second⟩, answered⟩ := evaluated
  obtain ⟨_, answered, selected⟩ := exists_ok answered
  obtain ⟨found, rfl, members⟩ := (Option.any_eq_true _ _).mp selected
  exact ⟨a, found, accepted, Program.mem_listing_of_assigns first,
    Program.mem_listing_of_assigns second, by decide, by decide, answered,
    of_decide_eq_true members⟩

end ProgramQuery

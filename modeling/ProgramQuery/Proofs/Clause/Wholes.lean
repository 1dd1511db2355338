import ProgramQuery.Proofs.Clause.Pattern

/-! Patterns that ask for the whole of what is assigned. Values are compared with the expression part by
part, and so exactly. But an expression without operators is not compared at all.
-/

namespace ProgramQuery

open Query

namespace Tree

/-- A tree of an expression: names and integers have no parts, and operators have two. -/
inductive IsExpression : Tree → Prop
  | leaf {label : String} (text : String) (line : Int) (plain : label ∈ ["NAME", "INTEGER"])
    : IsExpression (.node label text line [])
  | binary {label : String} (text : String) (line : Int) {left right : Tree}
    (operator : label ∈ ["PLUS", "MINUS", "MULTIPLY"]) (first : IsExpression left)
    (second : IsExpression right)
    : IsExpression (.node label text line [left, right])

mutual

/-- Whether two trees have the same shape with the same labels and texts, on whatever lines. -/
def sameAs : Tree → Tree → Bool
  | .missing, .missing => true
  | .node label text _ children, .node label' text' _ children' =>
    label == label' && text == text' && sameAll children children'
  | _, _ => false

def sameAll : List Tree → List Tree → Bool
  | [], [] => true
  | t :: ts, u :: us => sameAs t u && sameAll ts us
  | _, _ => false

end

theorem partsAgree_cons {label text label' text' : String} {line line' : Int}
    {ts us rest rest' : List Tree}
    : partsAgree (.node label text line ts :: rest) (.node label' text' line' us :: rest')
      = if label ≠ label' ∧ text ≠ text' then .ok false else partsAgree rest rest' := by
  by_cases differ : label ≠ label' ∧ text ≠ text'
  · simp [partsAgree, heading, bind, Except.bind, pure, Except.pure, differ]
  · have agree : (label != label' && text != text') = false := by simpa using differ
    simp [partsAgree, heading, bind, Except.bind, agree, if_neg differ]

def Near (t u : Tree) : Prop :=
  t.label? = u.label? ∨ t.text? = u.text?

theorem Near.of_sameAs {t u : Tree} (same : t.sameAs u = true) : u.Near t := by
  cases t <;> cases u <;> simp_all [sameAs, Near, label?]

theorem IsExpression.node {t : Tree} (isExpr : t.IsExpression)
    : ∃ label text line ts, t = .node label text line ts := by
  cases isExpr <;> exact ⟨_, _, _, _, rfl⟩

theorem IsExpression.plain_ne_operator {label label' : String} (plain : label ∈ ["NAME", "INTEGER"])
    (operator : label' ∈ ["PLUS", "MINUS", "MULTIPLY"]) : label ≠ label' := by
  rintro rfl
  simp at plain operator
  grind

/-- Two expressions have other headings, or the same heading and as many parts. -/
theorem IsExpression.pair_induction {motive : Tree → Tree → Prop}
    (apart : ∀ {label text label' text' line line' ts us}, ¬ (label = label' ∧ text = text') →
      motive (.node label text line ts) (.node label' text' line' us))
    (leaves : ∀ {label text line line'}, motive (.node label text line []) (.node label text line' []))
    (operators : ∀ {label text line line' left right left' right'}, left.IsExpression →
      right.IsExpression → left'.IsExpression → right'.IsExpression → motive left left' →
      motive right right' →
      motive (.node label text line [left, right]) (.node label text line' [left', right']))
    {t e : Tree} (isExpr : t.IsExpression) (isExpr' : e.IsExpression)
    : motive t e := by
  induction isExpr generalizing e with
  | @leaf label text line plain =>
    cases isExpr' with
    | @leaf label' text' line' plain' =>
      by_cases same : label = label' ∧ text = text'
      · obtain ⟨rfl, rfl⟩ := same
        exact leaves
      · exact apart same
    | binary text' line' operator =>
      exact apart fun same => IsExpression.plain_ne_operator plain operator same.1
  | @binary label text line left right operator first second ihLeft ihRight =>
    cases isExpr' with
    | leaf text' line' plain =>
      exact apart fun same => IsExpression.plain_ne_operator plain operator same.1.symm
    | @binary label' text' line' left' right' operator' first' second' =>
      by_cases same : label = label' ∧ text = text'
      · obtain ⟨rfl, rfl⟩ := same
        exact operators first second first' second' (ihLeft first') (ihRight second')
      · exact apart same

/-- The comparison of tops looks at the parts only as far as this. -/
theorem partsAgree_pair {left right left' right' : Tree} (first : left.IsExpression)
    (second : right.IsExpression) (first' : left'.IsExpression) (second' : right'.IsExpression)
    : ∃ agree, partsAgree [left', right'] [left, right] = .ok agree
      ∧ (agree = true ↔ left'.Near left ∧ right'.Near right) := by
  obtain ⟨label, text, line, ts, rfl⟩ := first.node
  obtain ⟨label', text', line', ts', rfl⟩ := first'.node
  obtain ⟨other, word, row, us, rfl⟩ := second.node
  obtain ⟨other', word', row', us', rfl⟩ := second'.node
  rw [partsAgree_cons, partsAgree_cons]
  split
  next differ => exact ⟨false, rfl, by simp [Near, label?, text?, differ]⟩
  next near =>
    split
    next differ => exact ⟨false, rfl, by simp [Near, label?, text?, differ]⟩
    next near' => exact ⟨true, rfl, by simp [Near, label?, text?]; tauto⟩

/-- Tops with other headings are told apart. -/
theorem looksLike_apart {label text label' text' : String} {line line' : Int} {ts us : List Tree}
    (differ : ¬ (label = label' ∧ text = text'))
    : looksLike (.node label' text' line' us) (.node label text line ts) = .ok false := by
  have tops : ((label', text') != (label, text)) = true := by
    simpa using fun isLabel isText => differ ⟨isLabel.symm, isText.symm⟩
  simp [looksLike, heading, bind, Except.bind, pure, Except.pure, tops]

/-- The comparison of whole trees is exact on expressions. -/
theorem fits_whole {t e : Tree} (isExpr : t.IsExpression) (isExpr' : e.IsExpression)
    : t.fits false e = .ok (t.sameAs e) := by
  refine IsExpression.pair_induction (motive := fun t e => t.fits false e = .ok (t.sameAs e))
    ?apart ?leaves ?operators isExpr isExpr'
  case apart =>
    intro label text label' text' _ _ _ _ differ
    have same : (label == label' && text == text') = false := by simpa using differ
    rw [fits, looksLike_apart differ, sameAs, same]
    rfl
  case leaves =>
    intros
    simp [fits, looksLike, heading, sameAs, sameAll, fitsAll, partsAgree, children, bind,
      Except.bind, pure, Except.pure]
  case operators =>
    intro _ _ _ _ left right left' right' first second first' second' ihLeft ihRight
    obtain ⟨agree, agreed, near⟩ := partsAgree_pair first second first' second'
    have wide (inLeft : left.sameAs left' = true) (inRight : right.sameAs right' = true)
        : agree = true :=
      near.mpr ⟨.of_sameAs inLeft, .of_sameAs inRight⟩
    clear near
    cases inLeft : left.sameAs left' <;> cases inRight : right.sameAs right' <;> cases agree <;>
      simp_all [fits, looksLike, heading, sameAs, sameAll, fitsAll, children, bind, Except.bind,
        pure, Except.pure]

/-- The comparison of tops asks for the same heading, and of the parts only that each is near. -/
theorem looksLike_expression {t e : Tree} (isExpr : t.IsExpression) (isExpr' : e.IsExpression)
    : ∃ alike, e.looksLike t = .ok alike
      ∧ (alike = true ↔ e.heading? = t.heading? ∧ List.Forall₂ Near e.children t.children) := by
  refine IsExpression.pair_induction (motive := fun t e => ∃ alike, e.looksLike t = .ok alike
    ∧ (alike = true ↔ e.heading? = t.heading? ∧ List.Forall₂ Near e.children t.children))
    ?apart ?leaves ?operators isExpr isExpr'
  case apart =>
    intro _ _ _ _ _ _ _ _ differ
    refine ⟨false, looksLike_apart differ, ?_⟩
    simpa [heading?] using fun isLabel isText => absurd ⟨isLabel.symm, isText.symm⟩ differ
  case leaves =>
    intros
    refine ⟨true, ?_, by simp [heading?, children]⟩
    simp [looksLike, heading, partsAgree, children, bind, Except.bind, pure, Except.pure]
  case operators =>
    intro _ _ _ _ _ _ _ _ first second first' second' _ _
    obtain ⟨agree, agreed, near⟩ := partsAgree_pair first second first' second'
    refine ⟨agree, ?_, by simp [heading?, children, near]⟩
    simp [looksLike, heading, children, bind, Except.bind, agreed]

mutual

def unnumbered : Tree → Tree
  | .missing => .missing
  | .node label text _ children => .node label text 0 (unnumberedAll children)

def unnumberedAll : List Tree → List Tree
  | [] => []
  | t :: rest => t.unnumbered :: unnumberedAll rest

end

mutual

theorem sameAs_iff_unnumbered (t u : Tree) : t.sameAs u = true ↔ t.unnumbered = u.unnumbered := by
  cases t <;> cases u <;> simp [sameAs, unnumbered, sameAll_iff_unnumbered, and_assoc]

theorem sameAll_iff_unnumbered (ts us : List Tree)
    : sameAll ts us = true ↔ unnumberedAll ts = unnumberedAll us := by
  cases ts <;> cases us <;>
    simp [sameAll, unnumberedAll, sameAs_iff_unnumbered, sameAll_iff_unnumbered]

end

/-- Two expressions fit as wholes exactly if they are the same tree but for the
numbers of the nodes. The comparison of tops on which this rests lets more through: parts that have
only the label or only the text in common.
-/
theorem fits_iff_unnumbered {t e : Tree} (isExpr : t.IsExpression) (isExpr' : e.IsExpression)
    : (∃ same, t.fits false e = .ok same ∧ (same = true ↔ t.unnumbered = e.unnumbered))
      ∧ ∃ alike, e.looksLike t = .ok alike
        ∧ (alike = true ↔ e.heading? = t.heading? ∧ List.Forall₂ Near e.children t.children) :=
  ⟨⟨_, fits_whole isExpr isExpr', sameAs_iff_unnumbered t e⟩, looksLike_expression isExpr isExpr'⟩

/-- One operand has only the label in common, and the other one only the text. -/
theorem fits_iff_unnumbered_of_near
    : ∃ t e : Tree, t.IsExpression ∧ e.IsExpression ∧ e.looksLike t = .ok true
      ∧ t.fits false e = .ok false := by
  let t : Tree := .node "PLUS" "+" 1 [.node "NAME" "x" 1 [], .node "NAME" "1" 1 []]
  let e : Tree := .node "PLUS" "+" 0 [.node "NAME" "y" 0 [], .node "INTEGER" "1" 0 []]
  have isExpr : t.IsExpression :=
    .binary "+" 1 (by simp) (.leaf "x" 1 (by simp)) (.leaf "1" 1 (by simp))
  have isExpr' : e.IsExpression :=
    .binary "+" 0 (by simp) (.leaf "y" 0 (by simp)) (.leaf "1" 0 (by simp))
  obtain ⟨⟨same, fits, exact_⟩, alike, looks, near⟩ := fits_iff_unnumbered isExpr isExpr'
  refine ⟨t, e, isExpr, isExpr', ?_, ?_⟩
  · rw [looks, near.mpr ⟨rfl, by simp [t, e, children, Near, label?, text?]⟩]
  · have differ : same ≠ true := fun holds => by
      simpa [t, e, unnumbered, unnumberedAll] using exact_.mp holds
    rw [fits, Bool.eq_false_of_not_eq_true differ]

end Tree

namespace Expr

theorem isExpression_toTree (e : Expr) (line : Int) : (e.toTree line).IsExpression := by
  induction e with
  | name x => exact .leaf x line (by simp)
  | literal digits => exact .leaf digits line (by simp)
  | binary op left right ihLeft ihRight => exact .binary _ line (by cases op <;> decide) ihLeft ihRight

theorem sameAs_toTree {t e : Expr} {line line' : Int}
    : (t.toTree line).sameAs (e.toTree line') = true ↔ t = e := by
  have label {op op' : Operator} : op.label = op'.label ↔ op = op' := by
    cases op <;> cases op' <;> decide
  have symbol {op op' : Operator} : op.symbol = op'.symbol ↔ op = op' := by
    cases op <;> cases op' <;> decide
  induction t generalizing e with
  | name x => cases e <;> simp [toTree, Tree.sameAs, Tree.sameAll]
  | literal digits => cases e <;> simp [toTree, Tree.sameAs, Tree.sameAll]
  | binary op left right ihLeft ihRight =>
    cases e <;> simp [toTree, Tree.sameAs, Tree.sameAll, label, symbol, ihLeft, ihRight]

end Expr

/-- A pattern that asks for an expression as the whole value has no
answer exactly if nothing is assigned to the variable named. Otherwise an expression with an operator
selects the assignments to that variable whose value it is, and a name or an integer alone selects all
assignments to that variable.
-/
theorem Analysis.patternLines_exact_on_wholes {code file : String} {a : Analysis}
    (accepted : Analysis.ofText code = .ok a) {q : Query} {x : String} {target : Reference}
    (typed : q.typeOf? x = some .assignment) (plain : target = .anything ∨ ∃ y, target = .name y)
    (e : Expr)
    : ∃ found?, Clause.patternLines (a.program.toTree file) a.knowledge
          (q.patternTree (.assignment x target (.whole e))) = .ok found?
      ∧ (found? = none ↔ ∀ (line : Nat) (name : String) (value : Expr),
          (line, Stmt.assign name value) ∈ a.program.listing → ¬ target.Names name)
      ∧ ∀ thing, (∃ found, found? = some found ∧ thing ∈ found.members)
        ↔ ∃ (line : Nat) (name : String) (value : Expr),
          (line, Stmt.assign name value) ∈ a.program.listing ∧ thing = .line line
          ∧ target.Names name ∧ (e.operands = [] ∨ value = e) := by
  have describes := Analysis.describes accepted
  cases operands : e.operands with
  | nil =>
    have searched (found : List Int)
        : Clause.fittingAssignments (a.program.toTree file) (RightSide.whole e).tree found
          = found.filterM fun _ => pure true := by
      have kept : found.filterM (fun _ => (pure true : Asked Bool)) = .ok (found.filter fun _ => true) :=
        filterM_eq_filter fun _ _ => rfl
      rw [kept, List.filter_true, RightSide.tree, Expr.toTree_eq, operands]
      rfl
    simpa using patternLines_assignment describes typed plain searched fun _ => rfl
  | cons first rest =>
    have searched (found : List Int)
        : Clause.fittingAssignments (a.program.toTree file) (RightSide.whole e).tree found
          = found.filterM (Clause.assignedFits (a.program.toTree file) false (e.toTree 0)) := by
      cases e with
      | binary op left right => cases op <;> rfl
      | _ => simp [Expr.operands] at operands
    have compared (value : Expr) (line : Int)
        : (value.toTree line).fits false (e.toTree 0) = .ok ((value.toTree 0).sameAs (e.toTree 0)) := by
      rw [Tree.fits_whole (value.isExpression_toTree _) (e.isExpression_toTree _)]
      congr 1
      rw [Bool.eq_iff_iff, Expr.sameAs_toTree, Expr.sameAs_toTree]
    simpa [Expr.sameAs_toTree] using patternLines_assignment describes typed plain searched
      fun listed => assignedFits_eq listed (compared _ _)

/-- Of two assignments of the same value, the one to the variable named is selected. -/
theorem Analysis.patternLines_exact_on_product
    : ∃ a found, Analysis.ofText "procedure p \x7b x = a*b; y = a*b; x = a; \x7d" = .ok a
      ∧ Clause.patternLines (a.program.toTree "code.txt") a.knowledge
          (assignments.patternTree (.assignment "a" (.name "x")
            (.whole (.binary .times (.name "a") (.name "b"))))) = .ok (some found)
      ∧ .line 1 ∈ found.members := by
  have evaluated : ((Analysis.ofText "procedure p \x7b x = a*b; y = a*b; x = a; \x7d").toOption.any fun a =>
      a.program.listing.any fun entry => entry.1 == 1 && entry.2.assigns "x"
        (.binary .times (.name "a") (.name "b"))) = true := by
    decide +kernel
  obtain ⟨a, accepted, listed⟩ := exists_ok evaluated
  obtain ⟨_, answered, -, exact_⟩ := @Analysis.patternLines_exact_on_wholes _ "code.txt" a accepted
    assignments "a" (.name "x") (by decide) (.inr ⟨"x", rfl⟩) (.binary .times (.name "a") (.name "b"))
  obtain ⟨found, rfl, member⟩ := (exact_ (.line 1)).mpr
    ⟨1, "x", _, Program.mem_listing_of_assigns listed, rfl, .inr rfl, .inr rfl⟩
  exact ⟨a, found, accepted, answered, member⟩

/-- A name alone selects an assignment of another name. -/
theorem Analysis.patternLines_of_name
    : ∃ a found, Analysis.ofText "procedure p \x7b x = a; y = b; \x7d" = .ok a
      ∧ (2, Stmt.assign "y" (.name "b")) ∈ a.program.listing
      ∧ Clause.patternLines (a.program.toTree "code.txt") a.knowledge
          (assignments.patternTree (.assignment "a" .anything (.whole (.name "a")))) = .ok (some found)
      ∧ found.members = [.line 1, .line 2] := by
  have evaluated : ((Analysis.ofText "procedure p \x7b x = a; y = b; \x7d").toOption.any fun a =>
      (a.program.listing.any fun entry => entry.1 == 2 && entry.2.assigns "y" (.name "b"))
      && (Clause.patternLines (a.program.toTree "code.txt") a.knowledge
          (assignments.patternTree (.assignment "a" .anything
            (.whole (.name "a"))))).toOption.any fun found? =>
        found?.any fun found => decide (found.members = [.line 1, .line 2])) = true := by
    decide +kernel
  obtain ⟨a, accepted, evaluated⟩ := exists_ok evaluated
  obtain ⟨listed, answered⟩ := (Bool.and_eq_true _ _).mp evaluated
  obtain ⟨_, answered, selected⟩ := exists_ok answered
  obtain ⟨found, rfl, members⟩ := (Option.any_eq_true _ _).mp selected
  exact ⟨a, found, accepted, Program.mem_listing_of_assigns listed, answered, of_decide_eq_true members⟩

end ProgramQuery

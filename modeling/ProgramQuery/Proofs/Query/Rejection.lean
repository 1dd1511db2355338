import ProgramQuery.Proofs.Query.Meaning
import ProgramQuery.Proofs.Query.RoundTrip
import ProgramQuery.Proofs.Relation.CallAgreement
import ProgramQuery.Session

/-! A query that is turned down before it is worked out cannot be satisfied. A condition that holds for
some choice mentions nothing that the program lacks, and then the text of the query is read.
-/

open Relation (TransGen)

namespace ProgramQuery

open Text

namespace Query

/-- What a query may mention is what a program has. -/
structure Scope.Covers (scope : Scope) (p : Program) : Prop where
  lastLine : scope.lastLine = p.size
  procedures : ∀ x, x ∈ scope.procedures ↔ p.Fits .procedure (.name x)
  variableNames : ∀ x, x ∈ scope.variableNames ↔ p.Fits .variable (.name x)

theorem Scope.covers {p : Program} {knowledge : KnowledgeBase} (describes : knowledge.Describes p)
    : knowledge.scope.Covers p where
  lastLine := congrArg Nat.cast describes.length_statements
  procedures _ := describes.mem_procedureNames
  variableNames _ := describes.mem_variableNames

variable {p : Program} {q : Query} {choice : String → Entity} {scope : Scope} {e e' : Entity}
  {r r' : Reference} {digits : String}

theorem readNumeral_of_isInteger (integer : IsInteger digits)
    (small : numberOf digits < 10 ^ mostDigits)
    : readNumeral digits = .ok (numberOf digits : Int) := by
  have found : readInt? digits = some (numberOf digits : Int) := by
    obtain ⟨numeral, brief | ⟨n, rfl⟩⟩ := integer
    · obtain ⟨c, cs, heading, areDigits⟩ := isNumeral_iff.mp numeral
      have value := readInt?_of_isDigit (by simp [heading]) fun d member =>
        areDigits d (heading ▸ member)
      rwa [if_neg (Nat.not_lt.mpr brief)] at value
    · rw [numberOf, ofDigitChars_showInt] at small ⊢
      exact readInt?_showInt small
  unfold readInt? at found
  cases read : readNumeral digits with
  | ok n => simp_all [Except.toOption]
  | error fault => simp [read, Except.toOption] at found

/-- The number of a statement does not lie beyond the program. -/
theorem IsInteger.hasLine (integer : IsInteger digits) (covers : scope.Covers p) (short : p.Short)
    (inside : numberOf digits ≤ p.size)
    : scope.HasLine digits := by
  refine ⟨integer.1, _, readNumeral_of_isInteger integer (Nat.lt_of_le_of_lt inside short), ?_⟩
  rw [covers.lastLine]
  exact Int.ofNat_le.mpr inside

theorem Program.Fits.le_size {kind : Kind} {n : Nat} (fits : p.Fits kind (.line n)) : n ≤ p.size := by
  obtain ⟨s, listed, -⟩ := Program.fits_line.mp fits
  exact (Program.exists_mem_listing_iff.mp ⟨s, listed⟩).2

theorem IsLineArgument.fits (typed : q.IsLineArgument r) (means : r.Denotes p q choice e)
    (inside : ∀ n : Nat, e = .line n → n ≤ p.size) (covers : scope.Covers p) (short : p.Short)
    : q.FitsLine scope r := by
  cases r with
  | synonym x => exact typed
  | anything => exact trivial
  | line digits => exact IsInteger.hasLine typed covers short (inside _ means)
  | name x => exact typed.elim

theorem IsNamedArgument.fitsProcedure (typed : q.IsNamedArgument .procedure r)
    (means : r.Denotes p q choice e) (known : ∀ x, e = .name x → p.Fits .procedure (.name x))
    (covers : scope.Covers p)
    : q.FitsProcedure scope r := by
  cases r with
  | synonym x => exact typed
  | anything => exact trivial
  | line digits => exact typed.elim
  | name x => exact ⟨typed, (covers.procedures x).mpr (known x means)⟩

theorem IsNamedArgument.fitsVariable (typed : q.IsNamedArgument .var r)
    (means : r.Denotes p q choice e) (known : ∀ x, e = .name x → p.Fits .variable (.name x))
    (covers : scope.Covers p)
    : q.FitsVariable scope r := by
  cases r with
  | synonym x => exact typed
  | anything => exact trivial
  | line digits => exact typed.elim
  | name x => exact ⟨typed, (covers.variableNames x).mpr (known x means)⟩

def Reference.IsSpelled : Reference → Prop
  | .synonym x => isSynonym x = true
  | .anything => True
  | .line digits => isNumeral digits = true
  | .name x => isQuotable x = true

/-- A synonym and a quoted name that are spelled the same. -/
def Reference.Clash : Reference → Reference → Prop
  | .synonym x, .name y => x = y
  | .name x, .synonym y => x = y
  | _, _ => False

/-- What the text of an argument can start with. -/
def Reference.initial : Reference → Char → Bool
  | .synonym _ => isLetter
  | .anything => (· == '_')
  | .line _ => isDigit
  | .name _ => isLetter

theorem Reference.IsSpelled.initial (spelled : r.IsSpelled)
    : ∃ c cs, r.text.toList = c :: cs ∧ r.initial c = true := by
  cases r with
  | synonym x =>
    obtain ⟨c, cs, heading, letter, -⟩ := isSynonym_iff.mp spelled
    exact ⟨c, cs, heading, letter⟩
  | anything => exact ⟨'_', [], rfl, rfl⟩
  | line digits =>
    obtain ⟨c, cs, heading, areDigits⟩ := isNumeral_iff.mp spelled
    exact ⟨c, cs, heading, areDigits c (by simp)⟩
  | name x =>
    obtain ⟨c, cs, heading, letter, -⟩ := isQuotable_iff.mp spelled
    exact ⟨c, cs, heading, letter⟩

/-- Arguments for different things differ, unless a synonym is called like a quoted name. -/
theorem Reference.differ (spelled : r.IsSpelled) (spelled' : r'.IsSpelled)
    (means : r.Denotes p q choice e) (means' : r'.Denotes p q choice e') (other : e ≠ e')
    (apart : ¬ r.Clash r')
    : r.Differ r' := by
  by_contra same
  obtain ⟨text, real⟩ : r.text = r'.text ∧ r' ≠ .anything := by
    simpa only [Reference.Differ, not_or, not_not] using same
  obtain ⟨c, cs, heading, first⟩ := spelled.initial
  obtain ⟨c', cs', heading', first'⟩ := spelled'.initial
  rw [text, heading'] at heading
  obtain ⟨rfl, rfl⟩ := List.cons.inj heading
  have notBoth (letter : isLetter c' = true) (digit : isDigit c' = true) : False := by
    rw [not_isLetter_of_isDigit digit] at letter
    cases letter
  have notLetter (letter : isLetter c' = true) (underscore : (c' == '_') = true) : False := by
    rw [beq_iff_eq.mp underscore] at letter
    cases letter
  have notDigit (digit : isDigit c' = true) (underscore : (c' == '_') = true) : False := by
    rw [beq_iff_eq.mp underscore] at digit
    cases digit
  match r, r', text with
  | .synonym x, .synonym _, rfl => exact other (means.1.symm.trans means'.1)
  | .synonym _, .name _, text => exact apart text
  | .name _, .synonym _, text => exact apart text
  | .line _, .line _, rfl => exact other (means.trans means'.symm)
  | .name _, .name _, rfl => exact other (means.trans means'.symm)
  | .synonym _, .line _, _ => exact notBoth first first'
  | .name _, .line _, _ => exact notBoth first first'
  | .line _, .synonym _, _ => exact notBoth first' first
  | .line _, .name _, _ => exact notBoth first' first
  | .anything, .synonym _, _ => exact notLetter first' first
  | .anything, .name _, _ => exact notLetter first' first
  | .anything, .line _, _ => exact notDigit first' first
  | _, .anything, _ => exact real rfl

theorem IsLineArgument.isSpelled (synonyms : ∀ x type, q.typeOf? x = some type → isSynonym x = true)
    (typed : q.IsLineArgument r)
    : r.IsSpelled := by
  cases r with
  | synonym x =>
    obtain ⟨type, found, -⟩ := typed
    exact synonyms x type found
  | anything => exact trivial
  | line digits => exact typed.1
  | name x => exact typed.elim

theorem IsNamedArgument.isSpelled {type : EntityType}
    (synonyms : ∀ x type, q.typeOf? x = some type → isSynonym x = true)
    (typed : q.IsNamedArgument type r)
    : r.IsSpelled := by
  cases r with
  | synonym x => exact synonyms x type typed
  | anything => exact trivial
  | line digits => exact typed.elim
  | name x => exact typed

/-- What touches a variable is a statement or a procedure. -/
theorem TouchedFrom.place {own : Stmt → String → Prop} (does : p.TouchedFrom own e e')
    : (∀ n : Nat, e = .line n → n ≤ p.size) ∧ ∀ x, e = .name x → p.Fits .procedure (.name x) := by
  match e, e', does with
  | .line _, .name _, ⟨line, s, listed, _, same⟩ =>
    refine ⟨fun n isLine => ?_, nofun⟩
    cases isLine
    rw [Int.natCast_inj] at same
    exact (Program.exists_mem_listing_iff.mp ⟨s, same ▸ listed⟩).2
  | .name x, .name _, does =>
    refine ⟨nofun, fun x isName => ?_⟩
    cases isName
    exact .inl ⟨rfl, Program.ProcedureTouches.declared does⟩

theorem onLines_ne {rel : Nat → Nat → Prop} (increases : ∀ a b, rel a b → a < b)
    (holds : onLines rel e e')
    : e ≠ e' := by
  obtain ⟨a, b, related, rfl, rfl⟩ := holds.lines
  intro same
  have later := increases a b related
  simp only [Entity.line.injEq, Int.natCast_inj] at same
  omega

theorem transGen_lt {rel : Nat → Nat → Prop} (increases : ∀ a b, rel a b → a < b)
    : ∀ a b, TransGen rel a b → a < b := by
  intro a b path
  induction path with
  | single step => exact increases _ _ step
  | tail _ step ih => exact Nat.lt_trans ih (increases _ _ step)

theorem onNames_ne {rel : String → String → Prop} (irreflexive : ∀ a, ¬ rel a a)
    (holds : onNames rel e e')
    : e ≠ e' := by
  obtain ⟨a, b, related, rfl, rfl⟩ := holds.names
  rintro ⟨⟩
  exact irreflexive a related

section Relations

variable {c : RelationCondition}
  (synonyms : ∀ x type, q.typeOf? x = some type → isSynonym x = true)
  (covers : scope.Covers p)

section Lines

variable (short : p.Short) (first : q.IsLineArgument r) (second : q.IsLineArgument r')
  (means : r.Denotes p q choice e) (means' : r'.Denotes p q choice e') {rel : Nat → Nat → Prop}
  (holds : onLines rel e e')
include first second means means' holds

include covers short in
theorem fitsLine_of_relates (relates : p.Relates rel) : q.FitsLine scope r ∧ q.FitsLine scope r' := by
  obtain ⟨a, b, related, rfl, rfl⟩ := holds.lines
  have inside {line : Nat} (listed : ∃ s, (line, s) ∈ p.listing) (n : Nat)
      (same : Entity.line line = .line n) : n ≤ p.size := by
    cases same
    exact (Program.exists_mem_listing_iff.mp listed).2
  obtain ⟨left, right⟩ := relates a b related
  exact ⟨first.fits means (inside left) covers short, second.fits means' (inside right) covers short⟩

include synonyms in
theorem differ_of_increases (increases : ∀ a b, rel a b → a < b) : r.Differ r' := by
  refine Reference.differ (first.isSpelled synonyms) (second.isSpelled synonyms) means means'
    (onLines_ne increases holds) ?_
  -- No argument of a relation between statements is a quoted name.
  cases r <;> cases r' <;> first | exact id | exact first.elim | exact second.elim

end Lines

section Procedures

variable (first : q.IsNamedArgument .procedure r) (second : q.IsNamedArgument .procedure r')
  (means : r.Denotes p q choice e) (means' : r'.Denotes p q choice e') {rel : String → String → Prop}
  (relates : p.RelatesProcedures rel) (holds : onNames rel e e')
include synonyms covers first second means means' relates holds

theorem fitsProcedure_of_relates (irreflexive : ∀ a, ¬ rel a a) (apart : ¬ r.Clash r')
    : q.FitsProcedure scope r ∧ q.FitsProcedure scope r' ∧ r.Differ r' := by
  obtain ⟨left, right⟩ := relates.fits holds
  refine ⟨first.fitsProcedure means ?_ covers, second.fitsProcedure means' ?_ covers, ?_⟩
  · exact fun x same => same ▸ left
  · exact fun x same => same ▸ right
  · exact Reference.differ (first.isSpelled synonyms) (second.isSpelled synonyms) means means'
      (onNames_ne irreflexive holds) apart

end Procedures

include covers in
theorem fits_of_touches {own : Stmt → String → Prop} (short : p.Short)
    (first : q.IsLineArgument r ∨ q.IsNamedArgument .procedure r)
    (second : q.IsNamedArgument .var r') (means : r.Denotes p q choice e)
    (means' : r'.Denotes p q choice e') (mentions : ∀ s z, own s z → s.Assigns z ∨ s.Reads z)
    (does : p.TouchedFrom own e e')
    : (q.FitsLine scope r ∨ q.FitsProcedure scope r) ∧ q.FitsVariable scope r' := by
  obtain ⟨line, procedure⟩ := TouchedFrom.place does
  refine ⟨first.imp ?_ ?_, second.fitsVariable means' ?_ covers⟩
  · exact fun first => first.fits means line covers short
  · exact fun first => first.fitsProcedure means procedure covers
  · rintro z rfl
    exact does.fits mentions

include synonyms covers in
/-- A relation that holds for some choice takes the arguments that it is given. -/
theorem RelationCondition.accepted (short : p.Short) (declared : p.CalleesDeclared)
    (lists : p.Lists p.callGrid.called?) (typed : c.Typed q) (holds : c.Holds p q choice)
    (apart : c.relation = .calls ∨ c.relation = .callsStar → ¬ c.first.Clash c.second)
    : c.Accepted scope q := by
  obtain ⟨relation, first, second⟩ := c
  obtain ⟨e, e', means, means', holds⟩ := holds
  have lines {rel : Nat → Nat → Prop} (relates : p.Relates rel)
      (typed : q.IsLineArgument first ∧ q.IsLineArgument second) (holds : onLines rel e e') :=
    fitsLine_of_relates covers short typed.1 typed.2 means means' holds relates
  have ordered {rel : Nat → Nat → Prop} (relates : p.Relates rel) (increases : ∀ a b, rel a b → a < b)
      (typed : q.IsLineArgument first ∧ q.IsLineArgument second) (holds : onLines rel e e')
      : q.FitsLine scope first ∧ q.FitsLine scope second ∧ first.Differ second :=
    have fits := lines relates typed holds
    ⟨fits.1, fits.2, differ_of_increases synonyms typed.1 typed.2 means means' holds increases⟩
  have parent (a b : Nat) (holds : p.Parent a b) := holds.lt
  have follows (a b : Nat) (holds : p.Follows a b) := holds.lt
  have irreflexive (a : String) (path : TransGen p.Calls a a) : False :=
    lists.acyclic (declared.relates.transGen a a path).1 path
  cases relation with
  | parent => exact ordered Program.relates_parent parent typed holds
  | parentStar => exact ordered Program.relates_parent.transGen (transGen_lt parent) typed holds
  | follows => exact ordered Program.relates_follows follows typed holds
  | followsStar => exact ordered Program.relates_follows.transGen (transGen_lt follows) typed holds
  | next => exact lines Program.relates_step typed holds
  | nextStar => exact lines Program.relates_step.transGen typed holds
  | calls =>
    exact fitsProcedure_of_relates synonyms covers typed.1 typed.2 means means' declared.relates holds
      (fun a calls => irreflexive a (.single calls)) (apart (.inl rfl))
  | callsStar =>
    exact fitsProcedure_of_relates synonyms covers typed.1 typed.2 means means'
      declared.relates.transGen holds irreflexive (apart (.inr rfl))
  | modifies | modifiesStar =>
    exact fits_of_touches covers short typed.1 typed.2 means means' (fun _ _ => .inl) holds
  | uses | usesStar =>
    exact fits_of_touches covers short typed.1 typed.2 means means' (fun _ _ => .inr) holds

end Relations

theorem PatternCondition.accepted {c : PatternCondition} (covers : scope.Covers p)
    (typed : c.Typed q) (holds : c.Holds p q choice)
    : c.Accepted scope q := by
  have isVariable {line : Nat} {s : Stmt} {z : String} (listed : (line, s) ∈ p.listing)
      (mentions : s.Assigns z ∨ s.Reads z) (x : String) (same : Entity.name z = .name x)
      : p.Fits .variable (.name x) := by
    cases same
    exact .inr ⟨rfl, line, s, listed, mentions⟩
  cases c with
  | assignment x target value =>
    obtain ⟨line, name, e, -, listed, means, -⟩ := holds
    have known := isVariable listed (.inl ⟨e, rfl⟩)
    exact ⟨typed.1, typed.2.1.fitsVariable means known covers, typed.2.2⟩
  | branch x control =>
    obtain ⟨line, name, thenBody, elseBody, -, listed, means⟩ := holds
    have known := isVariable listed (.inr (.inr (.inr ⟨thenBody, elseBody, rfl⟩)))
    exact ⟨typed.1, typed.2.fitsVariable means known covers⟩
  | loop x control =>
    obtain ⟨line, name, body, -, listed, means⟩ := holds
    have known := isVariable listed (.inr (.inr (.inl ⟨body, rfl⟩)))
    exact ⟨typed.1, typed.2.fitsVariable means known covers⟩

/-- A thing is compared by itself, unless it is a call that is compared by the name it calls. -/
theorem Attribute.IsOf.cases {a : Attribute} {given : Entity} (has : a.IsOf p e given)
    : given = e ∨ a = .procedureName
      ∧ ∃ line callee, (line, Stmt.call callee) ∈ p.listing ∧ given = .name callee := by
  match a, e, has with
  | .procedureName, .line _, ⟨line, callee, listed, _, same⟩ =>
    exact .inr ⟨rfl, line, callee, listed, same⟩
  | .procedureName, .name _, same => exact .inl same
  | .procedureName, .missing, same => exact .inl same
  | .number, _, same => exact .inl same
  | .value, _, same => exact .inl same
  | .variableName, _, same => exact .inl same

section Compared

variable {type : EntityType} {given : Entity}

/-- What can be compared by an attribute of a type. Only constants are numbers of no statement. -/
structure Known (p : Program) (type : EntityType) (given : Entity) : Prop where
  line : type ≠ .constant → ∀ n : Nat, given = .line n → n ≤ p.size
  procedure : type = .procedure ∨ type = .call → ∀ x, given = .name x → p.Fits .procedure (.name x)
  name : type = .var → ∀ x, given = .name x → p.Fits .variable (.name x)

theorem EntityType.Ranges.known (ranges : type.Ranges p e) : Known p type e where
  line real n same := by
    subst same
    cases type <;> first
      | exact absurd rfl real
      | exact Program.Fits.le_size ranges
  procedure kind x same := by
    subst same
    rcases kind with rfl | rfl
    · exact ranges
    · obtain ⟨impossible, -⟩ | ⟨impossible, -⟩ := ranges <;> cases impossible
  name kind x same := by
    subst same
    subst kind
    exact ranges

theorem Known.of_call {line : Nat} {callee : String} (declared : p.CalleesDeclared)
    (listed : (line, Stmt.call callee) ∈ p.listing) (other : type ≠ .var)
    : Known p type (.name callee) where
  line _ n same := nomatch same
  procedure _ x same := by
    cases same
    exact .inl ⟨rfl, declared line callee listed⟩
  name kind := absurd kind other

theorem AttributeCondition.accepted {c : AttributeCondition} (covers : scope.Covers p)
    (short : p.Short) (declared : p.CalleesDeclared) (typed : c.Typed q) (holds : c.Holds p q choice)
    (near : q.typeOf? c.synonym = some .constant → ∀ digits, c.comparand = .line digits →
      numberOf digits ≤ p.size)
    : c.Accepted scope q := by
  obtain ⟨x, attr, comparand⟩ := c
  obtain ⟨⟨type, found, has⟩, spelled⟩ := typed
  obtain ⟨e, given, ⟨-, type', found', ranges⟩, means, value⟩ := holds
  obtain rfl : type' = type := Option.some.inj (found'.symm.trans found)
  have known : Known p type' given := by
    cases attr with
    | none => exact value ▸ ranges.known
    | some a =>
      rcases value.cases with rfl | ⟨rfl, line, callee, listed, rfl⟩
      · exact ranges.known
      · refine .of_call declared listed ?_
        rintro rfl
        cases has
  refine ⟨type', found, has, ?_⟩
  cases comparand with
  | name z =>
    refine ⟨spelled, fun kind => (covers.procedures z).mpr ?_,
      fun kind => (covers.variableNames z).mpr ?_⟩
    · exact known.procedure kind z means
    · exact known.name kind z means
  | line digits =>
    refine IsInteger.hasLine spelled covers short ?_
    by_cases constant : type' = .constant
    · subst constant
      exact near found digits rfl
    · exact known.line constant _ means
  | synonym y a => exact spelled

end Compared

theorem WellTyped.isSynonym (typed : q.WellTyped) (x : String) (type : EntityType)
    (found : q.typeOf? x = some type)
    : isSynonym x = true := by
  obtain ⟨d, found, -⟩ := Option.map_eq_some_iff.mp found
  have named := List.find?_some found
  exact typed.synonyms d (List.mem_of_find?_eq_some found) x (List.contains_iff_mem.mp named)

/-- A query of the right types is well formed if all its conditions are accepted. -/
theorem WellTyped.wellFormed (typed : q.WellTyped)
    (accepted : ∀ r ∈ q.restrictions, r.Accepted scope q)
    : q.WellFormed scope := by
  refine ⟨typed.synonyms, typed.distinct, typed.selected, fun clause member => ?_⟩
  have nonempty := typed.clauses clause member
  have each (r : Restriction) (inside : r ∈ clause.restrictions) : r.Accepted scope q :=
    accepted r (List.mem_flatMap.mpr ⟨clause, member, inside⟩)
  cases clause <;>
    exact ⟨fun none => nonempty (by simp [Clause.restrictions, none]),
      fun c inside => each _ (List.mem_map_of_mem inside)⟩

/-- A query that does not mix up a synonym with a quoted name in Calls, and compares no constant with a
number beyond the program. -/
structure Unmistakable (p : Program) (q : Query) : Prop where
  calls : ∀ c ∈ q.relationConditions, c.relation = .calls ∨ c.relation = .callsStar →
    ¬ c.first.Clash c.second
  constants : ∀ c ∈ q.attributeConditions, q.typeOf? c.synonym = some .constant →
    ∀ digits, c.comparand = .line digits → numberOf digits ≤ p.size

end Query

/-- Turning a query down early is sound. -/
theorem Analysis.not_satisfies_of_rejected {text : String} {a : Analysis}
    (accepted : Analysis.ofText text = .ok a) (short : a.program.Short)
    (declared : a.program.CalleesDeclared) {q : Query} (typed : q.WellTyped)
    (unmistakable : q.Unmistakable a.program) {tight : Bool} {failure : Query.Failure}
    (rejected : Query.Reading.ofText a.knowledge.scope (q.print tight) = .error failure)
    : ¬ ∃ choice, q.Satisfies a.program choice := by
  rintro ⟨choice, satisfies⟩
  have covers := Query.Scope.covers (Analysis.describes accepted)
  obtain ⟨lists, -⟩ := KnowledgeBase.ofProgram?_eq_some (Analysis.ofText_eq_ok accepted).2
  have conditions (r : Query.Restriction) (member : r ∈ q.restrictions)
      : r.Accepted a.knowledge.scope q := by
    have holds := satisfies r member
    have rightTypes := typed.conditions r member
    cases r with
    | comparison c =>
      exact c.accepted covers short declared rightTypes holds
        (unmistakable.constants c (Query.mem_attributeConditions.mpr member))
    | pattern c => exact c.accepted covers rightTypes holds
    | relation c =>
      exact c.accepted typed.isSynonym covers short declared lists rightTypes holds
        (unmistakable.calls c (Query.mem_relationConditions.mpr member))
  obtain ⟨stop, read, -⟩ := Query.Reading.exists_ofText_print (typed.wellFormed conditions) tight
  rw [read] at rejected
  cases rejected

/-- A truth value is asked for, and a statement is mentioned that the program does not have. -/
theorem Analysis.not_satisfies_of_rejected_beyond
    : ∃ (a : Analysis) (q : Query),
      Analysis.ofText "procedure p \x7b call q; \x7d procedure q \x7b x = 1; \x7d" = .ok a
      ∧ q.print false = "stmt s ; procedure r ; Select BOOLEAN such that Calls ( r , \"q\" )"
        ++ " and Next ( s , 9 )"
      ∧ Query.Reading.ofText a.knowledge.scope (q.print false) = .error (.noAnswer true)
      ∧ ¬ ∃ choice, q.Satisfies a.program choice := by
  let q : Query := {
    declarations := [⟨.statement, ["s"]⟩, ⟨.procedure, ["r"]⟩]
    selected := none
    clauses := [.suchThat [⟨.calls, .synonym "r", .name "q"⟩, ⟨.next, .synonym "s", .line "9"⟩]] }
  have typed : q.WellTyped := by
    refine ⟨by decide, by decide, nofun, by decide, ?_⟩
    refine List.forall_mem_cons.mpr ⟨?_, List.forall_mem_singleton.mpr ?_⟩
    · exact ⟨rfl, rfl⟩
    · exact ⟨⟨.statement, rfl, rfl⟩, rfl, .inl (by decide)⟩
  have unmistakable (p : Program) : q.Unmistakable p := by
    refine ⟨List.forall_mem_cons.mpr ⟨fun _ => ?_, List.forall_mem_singleton.mpr fun _ => id⟩, nofun⟩
    exact show ¬ "r" = "q" by decide
  have evaluated : ((Analysis.ofText
      "procedure p \x7b call q; \x7d procedure q \x7b x = 1; \x7d").toOption.any fun a =>
        decide (a.program.Short ∧ a.program.CalleesDeclared)
        && match Query.Reading.ofText a.knowledge.scope (q.print false) with
          | .error failure => decide (failure = .noAnswer true)
          | .ok _ => false) = true := by
    decide +kernel
  obtain ⟨a, source, evaluated⟩ := exists_ok evaluated
  simp only [Bool.and_eq_true, decide_eq_true_eq] at evaluated
  obtain ⟨⟨short, declared⟩, read⟩ := evaluated
  split at read
  · next rejected =>
    rw [of_decide_eq_true read] at rejected
    exact ⟨a, q, source, by decide +kernel, rejected,
      Analysis.not_satisfies_of_rejected source short declared typed (unmistakable _) rejected⟩
  · cases read

/-- A synonym that is called like the quoted name beside it is taken for the same thing. -/
theorem Analysis.satisfies_of_rejected_clash
    : ∃ (a : Analysis) (q : Query),
      Analysis.ofText "procedure p \x7b x = 100; call q; \x7d procedure q \x7b x = 1; \x7d" = .ok a
      ∧ a.program.Short ∧ a.program.CalleesDeclared ∧ q.WellTyped
      ∧ q.print false = "procedure p ; Select p such that Calls ( \"p\" , p )"
      ∧ Query.Reading.ofText a.knowledge.scope (q.print false) = .error (.noAnswer false)
      ∧ ∃ choice, q.Satisfies a.program choice := by
  let q : Query := {
    declarations := [⟨.procedure, ["p"]⟩]
    selected := some "p"
    clauses := [.suchThat [⟨.calls, .name "p", .synonym "p"⟩]] }
  have typed : q.WellTyped := by
    refine ⟨by decide, by decide, ?_, by decide, List.forall_mem_singleton.mpr ⟨rfl, rfl⟩⟩
    intro x chosen
    cases chosen
    exact ⟨.procedure, rfl⟩
  have evaluated : ((Analysis.ofText
      "procedure p \x7b x = 100; call q; \x7d procedure q \x7b x = 1; \x7d").toOption.any fun a =>
        decide ((a.program.Short ∧ a.program.CalleesDeclared)
          ∧ "q" ∈ a.program.callGrid.columnsOf "p" ∧ "q" ∈ a.knowledge.procedureNames)
        && match Query.Reading.ofText a.knowledge.scope (q.print false) with
          | .error failure => decide (failure = .noAnswer false)
          | .ok _ => false) = true := by
    decide +kernel
  obtain ⟨a, source, evaluated⟩ := exists_ok evaluated
  simp only [Bool.and_eq_true, decide_eq_true_eq] at evaluated
  obtain ⟨⟨⟨short, declared⟩, called, known⟩, read⟩ := evaluated
  split at read
  · next rejected =>
    rw [of_decide_eq_true read] at rejected
    refine ⟨a, q, source, short, declared, typed, by decide +kernel, rejected,
      fun _ => .name "q", List.forall_mem_singleton.mpr ⟨.name "p", .name "q", rfl, ?_, ?_⟩⟩
    · exact ⟨rfl, .procedure, rfl, (Analysis.describes source).mem_procedureNames.mp known⟩
    · exact Program.mem_columnsOf_callGrid.mp called
  · cases read

end ProgramQuery
